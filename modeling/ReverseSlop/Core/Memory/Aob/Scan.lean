import Mathlib.Data.List.Forall2
import ReverseSlop.Core.Infra.Limits
import ReverseSlop.Core.Memory.ReadUtil
import ReverseSlop.Library.Arithmetic
import ReverseSlop.Library.Lists
import ReverseSlop.Library.Numeral

namespace slop.core.memory

/-- A compiled pattern: one nibble mask for every literal byte, and at least one
byte, since `aob_compile` refuses a text without tokens. -/
structure aob_pattern_t where
  bytes : List UInt8
  nibble_mask : List UInt8
  same_length : nibble_mask.length = bytes.length
  nonempty : 0 < bytes.length

def aob_pattern_t.size (p : aob_pattern_t) : Nat := p.bytes.length

theorem aob_pattern_t.size_pos (p : aob_pattern_t) : 0 < p.size := p.nonempty

/-- The pattern matches at the start of the buffer. A pattern longer than the
buffer never matches. -/
def aob_match (p : aob_pattern_t) (data : List UInt8) : Bool :=
  if p.size = 0 ∨ data.length < p.size then false
  else ((p.bytes.zip p.nibble_mask).zip data).all fun ((byte, m), d) => m == 0 || d &&& m == byte &&& m

theorem aob_match_short {p : aob_pattern_t} {data : List UInt8} (hshort : data.length < p.size) :
    aob_match p data = false := by
  simp [aob_match, hshort]

/-- Only the first `size` bytes of the buffer decide a match. -/
theorem aob_match_append {p : aob_pattern_t} {data rest : List UInt8} (hsize : data.length = p.size) :
    aob_match p (data ++ rest) = aob_match p data := by
  have hpos := p.size_pos
  have hzip : (p.bytes.zip p.nibble_mask).length = data.length := by
    simp [p.same_length, hsize, aob_pattern_t.size]
  have htrim : (p.bytes.zip p.nibble_mask).zip (data ++ rest) = (p.bytes.zip p.nibble_mask).zip data := by
    have h : ((p.bytes.zip p.nibble_mask) ++ []).zip (data ++ rest) = _ := List.zip_append hzip
    simpa using h
  have hlong : ¬ (data ++ rest).length < p.size := by
    simp only [List.length_append]
    omega
  simp only [aob_match, htrim, hlong, show ¬ data.length < p.size by omega]

/-- A pattern matches its own literal bytes. -/
theorem aob_match_bytes (p : aob_pattern_t) : aob_match p p.bytes = true := by
  have hpos := p.size_pos
  have hself : ∀ (bytes masks : List UInt8),
      ((bytes.zip masks).zip bytes).all (fun ((byte, m), d) => m == 0 || d &&& m == byte &&& m) = true := by
    intro bytes
    induction bytes with
    | nil => simp
    | cons byte bytes ih =>
      intro masks
      cases masks with
      | nil => simp
      | cons m masks => simp [ih masks]
  rw [aob_match, if_neg (by simp only [aob_pattern_t.size] at hpos ⊢; omega)]
  exact hself p.bytes p.nibble_mask

/-- `aob_match` holds of the memory at an address. -/
def aob_pattern_t.MatchesAt (p : aob_pattern_t) (mem : memory_t) (addr : Nat) : Prop :=
  aob_match p (mem.bytes_at addr p.size) = true

instance (p : aob_pattern_t) (mem : memory_t) (addr : Nat) : Decidable (p.MatchesAt mem addr) :=
  inferInstanceAs (Decidable (_ = true))

/-- Inside a buffer read from memory, the match at an offset is the match at the
address. -/
theorem aob_match_drop_bytes_at (p : aob_pattern_t) (mem : memory_t) {base len off : Nat}
    (hfits : off + p.size ≤ len) :
    aob_match p ((mem.bytes_at base len).drop off) = true ↔ p.MatchesAt mem (base + off) := by
  have hlen : len - off = p.size + (len - off - p.size) := by omega
  rw [mem.drop_bytes_at (by omega), hlen, mem.bytes_at_add, aob_match_append (by simp)]
  rfl

/-- The value of a hex digit. -/
def hex_val (c : UInt8) : Option Nat :=
  if 48 ≤ c ∧ c ≤ 57 then some (c.toNat - 48)
  else if 97 ≤ c ∧ c ≤ 102 then some (c.toNat - 97 + 10)
  else if 65 ≤ c ∧ c ≤ 70 then some (c.toNat - 65 + 10)
  else none

def is_separator (c : UInt8) : Bool := c = 32 || c = 9 || c = 44

def is_wildcard (c : UInt8) : Bool := c = 63 || c = 42

/-- The tokens of a text, of which `cur` is read already. -/
def tokenize (cur : List UInt8) : List UInt8 → List (List UInt8)
  | [] => if cur ≠ [] then [cur] else []
  | c :: text =>
    if is_separator c then if cur ≠ [] then cur :: tokenize [] text else tokenize [] text
    else tokenize (cur ++ [c]) text

/-- A byte from its halves, of which a missing one is 0. -/
def halves (hi lo : Option Nat) : UInt8 := (hi.getD 0 <<< 4 ||| lo.getD 0).toUInt8

/-- The pairs of a string of hex digits. -/
def compact_pairs : List UInt8 → List (UInt8 × UInt8)
  | c :: c' :: t => (halves (hex_val c) (hex_val c'), 0xFF) :: compact_pairs t
  | _ => []

def is_compact (t : List UInt8) : Bool := t.length > 2 && t.length % 2 == 0 && t.all fun c => (hex_val c).isSome

/-- The value and the mask of a half. A wildcard has no value, and anything but a digit is no half. -/
def compile_half (half_mask : UInt8) (c : UInt8) : Option (Option Nat × UInt8) :=
  if is_wildcard c then some (none, 0) else (hex_val c).map fun n => (some n, half_mask)

/-- The value and the mask of a token. -/
def compile_token (t : List UInt8) : Except (List UInt8) (UInt8 × UInt8) :=
  let t := Numeral.strip_0x t
  let bad := .error (Numeral.ascii "bad token '" ++ t ++ Numeral.ascii "'")
  if t = [] then .error (Numeral.ascii "empty token")
  else if t = [63, 63] ∨ t = [42] ∨ t = [63] then .ok (0, 0x00)
  else
    match t with
    | [c] =>
      match compile_half 0xF0 c with
      -- the digit goes to the high half, and the mask is that of the low half
      | some (hi, _) => .ok (halves hi none, 0x0F)
      | none => bad
    | [c, c'] =>
      match compile_half 0xF0 c, compile_half 0x0F c' with
      | some (hi, mask), some (lo, mask') => .ok (halves hi lo, mask ||| mask')
      | _, _ => bad
    | _ => bad

/-- The pattern of some values and masks. -/
def pattern_of (cells : List (UInt8 × UInt8)) : Except (List UInt8) aob_pattern_t :=
  if h : cells = [] then .error (Numeral.ascii "empty pattern")
  else
    .ok {
      bytes := cells.map Prod.fst
      nibble_mask := cells.map Prod.snd
      same_length := by rw [List.length_map, List.length_map]
      nonempty := by rw [List.length_map]; exact List.length_pos_iff.mpr h }

def aob_compile (text : List UInt8) : Except (List UInt8) aob_pattern_t :=
  let tokens := tokenize [] text
  let has_wild := text.any is_wildcard
  let compact : Option (List UInt8) :=
    match tokens with
    | [t] =>
      let t := if t.length > 2 then Numeral.strip_0x t else t
      if !has_wild && is_compact t then some t else none
    | _ => none
  if tokens = [] then .error (Numeral.ascii "empty pattern")
  else
    match compact with
    | some t => pattern_of (compact_pairs t)
    | none => do pattern_of (← tokens.mapM compile_token)

open infra

/-- Zero stands for the default in `max_results`, `chunk_bytes` and `threads`. -/
structure aob_scan_options_t where
  alignment : UInt32 := 1
  max_results : Nat := 0
  chunk_bytes : Nat := 0
  threads : Nat := 0

structure aob_stats_t where
  bytes_scanned : Nat := 0
  matches_found : Nat := 0
  truncated : Bool := false
  cancelled : Bool := false

def aob_scan_options_t.result_cap (opt : aob_scan_options_t) : Nat :=
  if opt.max_results ≠ 0 then opt.max_results else limits.max_aob_matches

def aob_scan_options_t.chunk (opt : aob_scan_options_t) : Nat :=
  if opt.chunk_bytes ≠ 0 then opt.chunk_bytes else limits.scan_chunk_bytes

def aob_scan_options_t.align (opt : aob_scan_options_t) : Nat :=
  max (if opt.alignment ≠ 0 then opt.alignment.toNat else 1) 1

theorem aob_scan_options_t.chunk_pos (opt : aob_scan_options_t) : 0 < opt.chunk := by
  simp only [chunk, limits.scan_chunk_bytes]
  split <;> omega

theorem aob_scan_options_t.align_pos (opt : aob_scan_options_t) : 0 < opt.align := by
  simp only [align]
  omega

/-- A region cut to the alignment: `[b, e)`. -/
structure span_t where
  b : Nat
  e : Nat

def aob_scan_options_t.round_up (opt : aob_scan_options_t) (addr : Nat) : Nat :=
  (addr + opt.align - 1) / opt.align * opt.align

def aob_span (opt : aob_scan_options_t) (p : aob_pattern_t) (reg : scan_region_t) : Option span_t :=
  if reg.size < p.size then none
  else
    let b := opt.round_up reg.base
    let e := reg.base + reg.size
    if e ≤ b then none else some ⟨b, e⟩

def aob_spans (opt : aob_scan_options_t) (p : aob_pattern_t) (regions : List scan_region_t) : List span_t :=
  regions.filterMap (aob_span opt p)

/-- What one worker thread collects. -/
structure aob_worker_t where
  local_matches : List Nat := []
  local_bytes : Nat := 0
  truncated : Bool := false

def aob_worker_t.add_match (cap : Nat) (out : aob_worker_t) (addr : Nat) : aob_worker_t :=
  if out.local_matches.length < cap then { out with local_matches := out.local_matches ++ [addr] }
  else { out with truncated := true }

def aob_worker_t.add_bytes (out : aob_worker_t) (len : Nat) : aob_worker_t :=
  { out with local_bytes := out.local_bytes + len }

/-- `for (a = ...; a <= scan_end; a += align)` over one buffer read at `base`.
`none` is the undefined behaviour of a pointer past the buffer. -/
def scan_window (opt : aob_scan_options_t) (p : aob_pattern_t) (base : Nat) (buf : List UInt8)
    (scan_end a : Nat) (out : aob_worker_t) : Option aob_worker_t :=
  if a ≤ scan_end then
    if buf.length < a - base then none
    else
      scan_window opt p base buf scan_end (a + opt.align)
        (if aob_match p (buf.drop (a - base)) then out.add_match opt.result_cap a else out)
  else some out
termination_by scan_end + 1 - a
decreasing_by
  have := opt.align_pos
  omega

/-- The sink of the page-granular reads a failed chunk falls back to. -/
def scan_run_sink (opt : aob_scan_options_t) (p : aob_pattern_t) (out : aob_worker_t)
    (run : detail.run_t) : Option aob_worker_t :=
  let out := out.add_bytes run.data.length
  if run.data.length < p.size then some out
  else scan_window opt p run.addr run.data (run.addr + run.data.length - p.size) run.addr out

def aob_scan_options_t.step_back (p : aob_pattern_t) (want : Nat) : Nat := min (p.size - 1) (want - 1)

/-- The chunked walk over one span, `n` counting the polls and reads of the
thread. The last address of a chunk is an unsigned subtraction, which wraps when
the chunk is shorter than the pattern and lies below it in memory. -/
def walk_span (opt : aob_scan_options_t) (p : aob_pattern_t) (r : reader_t) (tok : cancel_token_t)
    (s : span_t) (cursor n : Nat) (out : aob_worker_t) : Option (aob_worker_t × Nat) :=
  if cursor + p.size ≤ s.e then
    if tok.cancelled n then some (out, n + 1)
    else
      let want := min opt.chunk (s.e - cursor)
      match r.read n cursor want with
      | none =>
        let (runs, next) := detail.resilient_read r tok cursor want 4096 (n + 1)
        match runs.foldlM (scan_run_sink opt p) out with
        | none => none
        | some out => walk_span opt p r tok s (cursor + want) next out
      | some buf =>
        match scan_window opt p cursor buf (Word.sub64 (cursor + want) p.size) cursor (out.add_bytes want) with
        | none => none
        | some out =>
          walk_span opt p r tok s (cursor + (want - aob_scan_options_t.step_back p want)) (n + 1) out
  else some (out, n)
termination_by s.e - cursor
decreasing_by
  · have := p.size_pos
    have := opt.chunk_pos
    omega
  · have := p.size_pos
    have := opt.chunk_pos
    simp only [aob_scan_options_t.step_back]
    omega

/-- A worker thread over the spans it claims, in the order it claims them. -/
def aob_worker (opt : aob_scan_options_t) (p : aob_pattern_t) (r : reader_t) (tok : cancel_token_t) :
    List span_t → Nat → aob_worker_t → Option aob_worker_t
  | [], _, out => some out
  | s :: rest, n, out =>
    if tok.cancelled n then some out
    else
      match walk_span opt p r tok s s.b (n + 1) out with
      | none => none
      | some (out, next) => aob_worker opt p r tok rest next out

/-- The choices of one execution: the size of the machine, which worker claims a
span, in which order the workers reach the merge mutex, and what each of them
(and at last the caller) sees of the target and of the abort flag. -/
structure aob_exec_t where
  hardware_concurrency : Nat
  owner : Nat → Nat
  finish : Nat → Nat
  reader : Nat → reader_t
  tok : Nat → cancel_token_t
  cancelled : Bool

def aob_scan_options_t.worker_count (opt : aob_scan_options_t) (exec : aob_exec_t) (span_count : Nat) : Nat :=
  let nw := if opt.threads ≠ 0 then opt.threads else exec.hardware_concurrency
  let nw := max 1 (min nw 64)
  if span_count ≠ 0 then min nw span_count else nw

theorem aob_scan_options_t.worker_count_pos (opt : aob_scan_options_t) (exec : aob_exec_t) (span_count : Nat) :
    0 < opt.worker_count exec span_count := by
  simp only [worker_count]
  split <;> omega

/-- The spans a worker gets from the shared counter. -/
def aob_exec_t.claimed (exec : aob_exec_t) (nw worker : Nat) (spans : List span_t) : List span_t :=
  (spans.zipIdx.filter fun (_, index) => exec.owner index % nw = worker).map Prod.fst

/-- The workers in the order in which they take the merge mutex. -/
def aob_exec_t.merge_order (exec : aob_exec_t) (nw : Nat) : List Nat :=
  (List.range nw).mergeSort fun first second => exec.finish first ≤ exec.finish second

structure aob_result_t where
  addresses : List Nat := []
  stats : aob_stats_t := {}

/-- A worker's critical section at the end of its run. -/
def aob_result_t.merge (cap : Nat) (res : aob_result_t) (out : aob_worker_t) : aob_result_t :=
  let room := cap - res.addresses.length
  { addresses := res.addresses ++ out.local_matches.take room
    stats := { res.stats with
      bytes_scanned := res.stats.bytes_scanned + out.local_bytes
      truncated := res.stats.truncated || out.truncated || decide (room < out.local_matches.length) } }

/-- What `aob_scan` does once all workers are joined. -/
def aob_finish (cap : Nat) (exec : aob_exec_t) (outs : List aob_worker_t) : aob_result_t :=
  let res := outs.foldl (aob_result_t.merge cap) {}
  let addresses := (res.addresses.mergeSort (· ≤ ·)).unique
  { addresses, stats := { res.stats with matches_found := addresses.length, cancelled := exec.cancelled } }

def aob_scan (exec : aob_exec_t) (regions : List scan_region_t) (p : aob_pattern_t)
    (opt : aob_scan_options_t) : Option aob_result_t :=
  if p.size = 0 then some {}
  else
    let spans := aob_spans opt p regions
    let nw := opt.worker_count exec spans.length
    let outs := (exec.merge_order nw).mapM fun worker =>
      aob_worker opt p (exec.reader worker) (exec.tok worker) (exec.claimed nw worker spans) 0 {}
    outs.map (aob_finish opt.result_cap exec)

end slop.core.memory
