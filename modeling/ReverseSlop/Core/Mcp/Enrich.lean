import ReverseSlop.Library.Json
import ReverseSlop.Library.Numeral

namespace slop.core.mcp.enrich

open Json
open Numeral (ascii)
open SortedMap (find set add)

abbrev members_t := List (List UInt8 × Value)

/-- `0x%llX` -/
def addr_hex_str (v : UInt64) : List UInt8 := ascii "0x" ++ Numeral.print 16 v.toNat

def mem_protect_str (p : UInt32) : String :=
  let s := match (p &&& 0xFF).toNat with
    | 0x01 => "NOACCESS"
    | 0x02 => "R--"
    | 0x04 => "RW-"
    | 0x08 => "RW-COPY"
    | 0x10 => "--X"
    | 0x20 => "R-X"
    | 0x40 => "RWX"
    | 0x80 => "RX-COPY"
    | _ => "UNKNOWN"
  let s := if p &&& 0x100 ≠ 0 then s ++ "+GUARD" else s
  let s := if p &&& 0x200 ≠ 0 then s ++ "+NOCACHE" else s
  if p &&& 0x400 ≠ 0 then s ++ "+WRITECOMBINE" else s

def mem_state_str (st : UInt32) : String :=
  if st &&& 0x1000 ≠ 0 then "COMMIT"
  else if st &&& 0x2000 ≠ 0 then "RESERVE"
  else if st &&& 0x10000 ≠ 0 then "FREE"
  else "UNKNOWN"

def mem_type_str (t : UInt32) : String :=
  if t &&& 0x1000000 ≠ 0 then "IMAGE"
  else if t &&& 0x40000 ≠ 0 then "MAPPED"
  else if t &&& 0x20000 ≠ 0 then "PRIVATE"
  else "UNKNOWN"

def net_proto_str (p : UInt32) : String :=
  if p = 6 then "tcp" else if p = 17 then "udp" else if p = 1 then "icmp" else "other"

def net_dir_str (d : UInt32) : String := if d = 0 then "outbound" else "inbound"

def hw_type_str (t : UInt32) : String :=
  if t = 0 then "exec" else if t = 1 then "write" else if t = 3 then "read_write" else "unknown"

/-- The flags that have names, by their bits. -/
def rflags_names : List (Option String) :=
  [some "CF", none, some "PF", none, some "AF", none, some "ZF", some "SF", some "TF", some "IF", some "DF", some "OF",
    some "IOPL1", some "IOPL2", some "NT", none, some "RF", some "VM", some "AC", some "VIF", some "VIP", some "ID"]

def rflags_str (f : UInt64) : String :=
  let names := rflags_names.zipIdx.filterMap fun e => if f.toNat.testBit e.2 then e.1 else none
  if names.isEmpty then "none" else "+".intercalate names

/-- The names of addresses, and the image that is loaded. -/
structure enrich_ctx_t where
  syms : UInt64 → Option (List UInt8) := fun _ => none
  hype_names : UInt64 → Option (List UInt8) := fun _ => none
  image_name : List UInt8 := []
  image_base : UInt64 := 0
  image_size : UInt64 := 0
  have_image : Bool := false

def resolve_enrich_name (va : UInt64) (ctx : enrich_ctx_t) : List UInt8 :=
  match (ctx.syms va).filter (· ≠ []) with
  | some name => name
  | none => (ctx.hype_names va).getD []

def modoff_str (va : UInt64) (ctx : enrich_ctx_t) : List UInt8 :=
  if ctx.have_image = false ∨ ctx.image_name = [] then []
  else if va < ctx.image_base then []
  else if ctx.image_size ≠ 0 ∧ va ≥ ctx.image_base + ctx.image_size then []
  else ctx.image_name ++ (ascii "+0x" ++ Numeral.print 16 (va - ctx.image_base).toNat)

def addr_keys : List (List UInt8) :=
  ["va", "addr", "from", "base", "entry", "entry_va", "function_va", "vftable_va", "td_va", "vtable_va", "target",
    "dispatcher", "image_base", "module_base", "ntos_base", "lstar", "service_table", "peb_address", "ldr_address",
    "process_heap", "teb_address", "handler", "frame", "ret_addr", "frame_ptr", "rip", "rsp", "rbp", "start", "end",
    "header", "back_edge_src", "address", "slot_va", "assign_addr", "vftable", "module", "func", "fn_va"].map ascii

def is_addr_key (k : List UInt8) : Bool := addr_keys.contains k

def addr_array_keys : List (List UInt8) :=
  ["targets", "entries", "matches", "references", "callsites", "methods", "successors", "preds", "succs",
    "slots"].map ascii

def is_addr_array_key (k : List UInt8) : Bool := addr_array_keys.contains k

def contains (o : members_t) (key : String) : Bool := (find (ascii key) o).isSome

/-- `get<int64_t>` of an integer. -/
def get_int64 : Value → Option Int64
  | .number_integer n => some n
  | .number_unsigned n => some n.toInt64
  | _ => none

/-- An integer member. -/
def number_at (o : members_t) (key : String) : Option Int64 := (find (ascii key) o).bind get_int64

def string_at (o : members_t) (key : String) : Bool :=
  match find (ascii key) o with
  | some (.string _) => true
  | _ => false

def low32 (n : Int64) : UInt32 := n.toUInt64.toUInt32

def text (s : String) : Value := .string (ascii s)

/-- Add a text unless there is a member of its key. -/
def put (key s : String) (o : members_t) : members_t := add (ascii key) (text s) o

/-- Add what a text says of an integer member. -/
def put_number (key number : String) (str : Int64 → String) (o : members_t) : members_t :=
  match number_at o number with
  | some n => put key (str n) o
  | none => o

def region_units : Value :=
  .object [(ascii "base", text "VA decimal, see base_hex"),
    (ascii "protect/state/type", text "raw Windows constants, see *_str"), (ascii "size", text "bytes")]

def decode_region (o : members_t) : members_t :=
  if contains o "base" && contains o "size" && (number_at o "protect").isSome then
    let o := put_number "protect_str" "protect" (mem_protect_str ∘ low32) o
    let o := put_number "state_str" "state" (mem_state_str ∘ low32) o
    let o := put_number "type_str" "type" (mem_type_str ∘ low32) o
    add (ascii "units") region_units o
  else o

def decode_packet (o : members_t) : members_t :=
  if (number_at o "protocol").isSome && (contains o "direction" || contains o "local" || contains o "remote") then
    let o := put_number "protocol_str" "protocol" (net_proto_str ∘ low32) o
    put_number "direction_str" "direction" (net_dir_str ∘ low32) o
  else o

/-- `block_ip` and the like echo the integer back. -/
def decode_direction (o : members_t) : members_t :=
  if contains o "blocked" || contains o "rule_id" then
    put_number "direction_str" "direction" (net_dir_str ∘ low32) o
  else o

def decode_breakpoint (o : members_t) : members_t :=
  if contains o "slot" && contains o "len" && (number_at o "type").isSome && !contains o "type_str" then
    let o := put_number "type_str" "type" (hw_type_str ∘ low32) o
    put "type_help" "0=exec 1=write 3=read_write; len is 1/2/4/8" o
  else o

def decode_registers (o : members_t) : members_t :=
  if contains o "rip" then put_number "flags_str" "flags" (fun n => rflags_str n.toUInt64) o else o

def decode_complexity (o : members_t) : members_t :=
  if string_at o "complexity_rating" then
    put "complexity_rating_help" ("branch-count scale: simple<=5 branches, moderate<=10, complex<=20, " ++
      "very_complex<=50, extremely_complex>50") o
  else o

def decode_entropy (o : members_t) : members_t :=
  if contains o "overall_entropy" && contains o "verdict" then
    put "verdict_help" ("window verdicts: low_entropy|normal|high_entropy|encrypted_or_compressed " ++
      "(window entropy>7.0); overall>7.5 means almost certainly packed/encrypted") o
  else o

def decode_obfuscation (o : members_t) : members_t :=
  if contains o "obfuscation_score_pct" then
    put "score_help" "0-100; higher means more obfuscated (junk/opaque/indirect patterns)" o
  else o

def decode_anti_analysis (o : members_t) : members_t :=
  if contains o "anti_analysis_score_pct" then
    put "score_help" "0-100; higher means more anti-debug/VM/timing/trap detections" o
  else o

def decode_enrich_object (o : members_t) : members_t :=
  decode_anti_analysis (decode_obfuscation (decode_entropy (decode_complexity (decode_registers (decode_breakpoint
    (decode_direction (decode_packet (decode_region o))))))))

def hex_key (k : List UInt8) : List UInt8 := k ++ ascii "_hex"

/-- The number under an address key, when its signed value is not negative. -/
def addr_sv (k : List UInt8) (cur : Value) : Option Int64 :=
  if is_addr_key k then (get_int64 cur).filter (0 ≤ ·) else none

def enrich_number (ctx : enrich_ctx_t) (k : List UInt8) (va : UInt64) (o : members_t) : members_t :=
  let o := add (hex_key k) (.string (addr_hex_str va)) o
  if va ≠ 0 then
    let nm := resolve_enrich_name va ctx
    let o := if nm ≠ [] ∧ ¬ contains o "symbol" ∧ ¬ contains o "name" then add (k ++ ascii "_name") (.string nm) o else o
    let mo := modoff_str va ctx
    if mo ≠ [] then add (k ++ ascii "_modoff") (.string mo) o else o
  else o

/-- The text of an element of an array; negative values are given as zero. -/
def element_hex (e : Value) : Value :=
  let sv := (get_int64 e).getD 0
  .string (addr_hex_str (if sv < 0 then 0 else sv.toUInt64))

def enrich_array (k : List UInt8) (cur : Value) (o : members_t) : members_t :=
  match cur with
  | .array items =>
    if is_addr_array_key k ∧ items ≠ [] ∧ items.length ≤ 20000 ∧ items.all Value.is_integer then
      add (hex_key k) (.array (items.map element_hex)) o
    else o
  | _ => o

/-- What is added for a key, and then its own value enriched. -/
def enrich_key (ctx : enrich_ctx_t) (enrich : Value → Value) (o : members_t) (k : List UInt8) : members_t :=
  match find k o with
  | none => o
  | some cur =>
    let o := match addr_sv k cur with
      | some sv => enrich_number ctx k sv.toUInt64 o
      | none => enrich_array k cur o
    set k (enrich ((find k o).getD cur)) o

/-- Enrich a document, down to a number of levels; the call for a result has 15 of them, from depth 0
to depth 14. -/
def enrich_json_value (ctx : enrich_ctx_t) : Nat → Value → Value
  | 0, v => v
  | levels + 1, .object members =>
    .object (decode_enrich_object ((members.map Prod.fst).foldl (enrich_key ctx (enrich_json_value ctx levels)) members))
  | levels + 1, .array items =>
    if items.length > 20000 then .array items else .array (items.map (enrich_json_value ctx levels))
  | _ + 1, v => v

end slop.core.mcp.enrich
