import ReverseSlop.Core.Memory.Memscan.Config
import ReverseSlop.Core.Memory.ReadUtil
import ReverseSlop.Library.Arithmetic

namespace slop.core.memory

def sign_extend (bits : BitVec 64) : value_width_t → BitVec 64
  | .i8 => (bits.setWidth 8).signExtend 64
  | .i16 => (bits.setWidth 16).signExtend 64
  | .i32 => (bits.setWidth 32).signExtend 64
  | _ => bits

/-- `static_cast` of a double to an integer type truncates towards zero; only the
low bits of the type are kept here. Out of range the cast is undefined. -/
def cast_double (v : Float) : BitVec 64 :=
  if v < 0 then -(-v).toUInt64.toBitVec else v.toUInt64.toBitVec

def value_from_double (w : value_width_t) (v : Float) : BitVec 64 :=
  match w with
  | .f32 => v.toFloat32.toBits.toBitVec.setWidth 64
  | .f64 => v.toBits.toBitVec
  | .i8 | .u8 => ((cast_double v).setWidth 8).setWidth 64
  | .i16 | .u16 => ((cast_double v).setWidth 16).setWidth 64
  | .i32 | .u32 => ((cast_double v).setWidth 32).setWidth 64
  | .i64 | .u64 => cast_double v

/-- The two instances of the template parameter of `float_check`. -/
class floating_t (F : Type) where
  of_double : Float → F
  to_double : F → Float
  of_bits : BitVec 64 → F
  lt : F → F → Bool
  le : F → F → Bool
  eq : F → F → Bool

instance : floating_t Float where
  of_double v := v
  to_double v := v
  of_bits bits := Float.ofBits ⟨bits⟩
  lt a b := decide (a < b)
  le a b := decide (a ≤ b)
  eq a b := a == b

instance : floating_t Float32 where
  of_double := Float.toFloat32
  to_double := Float32.toFloat
  of_bits bits := Float32.ofBits ⟨bits.setWidth 32⟩
  lt a b := decide (a < b)
  le a b := decide (a ≤ b)
  eq a b := a == b

/-- `std::nearbyint` in the default rounding mode: ties go to the even neighbour. -/
def nearbyint (v : Float) : Float :=
  let low := v.floor
  let rest := v - low
  if rest < 0.5 then low
  else if rest > 0.5 then low + 1
  else if (low / 2).floor * 2 == low then low
  else low + 1

def round_to (v : Float) (digits : Nat) : Float :=
  let p := Float.pow 10 digits.toFloat
  nearbyint (v * p) / p

def round_eps (accuracy : Nat) : Float :=
  if accuracy ≠ 0 then Float.pow 10 (-accuracy.toFloat) else 1

def float_check {F : Type} [floating_t F] (cfg : scan_config_t) (curr prev : F) : Bool :=
  let d : F → Float := floating_t.to_double
  let v1 : F := floating_t.of_double cfg.value1
  let v2 : F := floating_t.of_double cfg.value2
  let p := prev
  let acc := cfg.float_accuracy
  match cfg.type with
  | .unknown_initial => true
  | .exact_value =>
    match cfg.rounding with
    | .exact => floating_t.eq curr v1
    | .rounded => round_to (d curr) acc == round_to (d v1) acc
    | .truncated =>
      let hi : F := floating_t.of_double (d v1 + round_eps acc)
      floating_t.le v1 curr && floating_t.lt curr hi
    | .extreme =>
      let eps : F := floating_t.of_double (round_eps acc)
      floating_t.le (floating_t.of_double (d v1 - d eps)) curr &&
        floating_t.le curr (floating_t.of_double (d v1 + d eps))
  | .between => floating_t.le v1 curr && floating_t.le curr v2
  | .bigger_than => floating_t.lt v1 curr
  | .smaller_than => floating_t.lt curr v1
  | .increased => floating_t.lt p curr
  | .increased_by => !floating_t.eq curr p && round_to (d curr) acc == round_to (d p + d v1) acc
  | .decreased => floating_t.lt curr p
  | .decreased_by => !floating_t.eq curr p && round_to (d curr) acc == round_to (d p - d v1) acc
  | .increased_percent =>
    decide (d curr > d p + d p * cfg.value1) && decide (d curr < d p + d p * cfg.value2)
  | .decreased_percent =>
    decide (d curr > d p - d p * cfg.value2) && decide (d curr < d p - d p * cfg.value1)
  | .changed => !floating_t.eq curr p
  | .unchanged => floating_t.eq curr p

/-- The operand of an integer comparison in the signed 64-bit space. -/
def int_operand (w : value_width_t) (v : Float) : BitVec 64 :=
  let bits := value_from_double w v
  let n := value_size w
  let bits := if n < 8 then bits &&& ((1#64 <<< (n * 8) - 1)) else bits
  if width_is_signed w then sign_extend bits w else bits

def int_check (cfg : scan_config_t) (w : value_width_t) (curr prev : BitVec 64) : Bool :=
  let sc := if width_is_signed w then sign_extend curr w else curr
  let sp := if width_is_signed w then sign_extend prev w else prev
  let s1 := int_operand w cfg.value1
  let s2 := int_operand w cfg.value2
  match cfg.type with
  | .unknown_initial => true
  | .changed => curr != prev
  | .unchanged => curr == prev
  | .increased_percent | .decreased_percent => false
  | .exact_value => sc == s1
  | .between => s1.sle sc && sc.sle s2
  | .bigger_than => s1.slt sc
  | .smaller_than => sc.slt s1
  | .increased => sp.slt sc
  | .decreased => sc.slt sp
  | .increased_by => sc - sp == s1
  | .decreased_by => sp - sc == s1

/-- The comparison kernel: `curr` was read now, `prev` is the stored value. -/
def check_value (cfg : scan_config_t) (w : value_width_t) (curr prev : BitVec 64) : Bool :=
  if width_is_float w then
    if w = .f32 then float_check (F := Float32) cfg (floating_t.of_bits curr) (floating_t.of_bits prev)
    else float_check (F := Float) cfg (floating_t.of_bits curr) (floating_t.of_bits prev)
  else int_check cfg w curr prev

/-- A relational first scan degrades to an unknown scan. -/
def is_relational : scan_type_t → Bool
  | .unknown_initial | .increased | .increased_by | .decreased | .decreased_by | .increased_percent
  | .decreased_percent | .changed | .unchanged => true
  | _ => false

/-- The candidate stride and the constraint on the address. -/
structure fastscan_t where
  step : Nat := 1
  require : Nat := 0
  mask : Nat := 0
  step_pos : 0 < step := by exact Nat.one_pos

/-- First candidate offset at or after `base` where the constraint holds. -/
def fastscan_t.first_offset (fs : fastscan_t) (base : Nat) : Nat :=
  if fs.step ≤ 1 then 0
  else if fs.mask = 0 then
    let r := base % fs.step
    if r ≠ 0 then fs.step - r else 0
  else
    let cur := base &&& fs.mask
    if cur = fs.require then 0
    else
      let delta := Word.sub64 fs.require cur &&& fs.mask
      if delta ≠ 0 then delta else fs.step

def scan_config_t.alignment_step (cfg : scan_config_t) : Nat :=
  if cfg.fast_alignment ≠ 0 then cfg.fast_alignment else 1

def scan_config_t.ends_with_step (cfg : scan_config_t) : Nat := Nat.pow 16 (min cfg.fast_digits 8)

theorem scan_config_t.alignment_step_pos (cfg : scan_config_t) : 0 < cfg.alignment_step := by
  unfold alignment_step
  split <;> omega

theorem scan_config_t.ends_with_step_pos (cfg : scan_config_t) : 0 < cfg.ends_with_step :=
  Nat.pow_pos (by decide)

def make_fastscan (cfg : scan_config_t) : fastscan_t :=
  match cfg.fast with
  | .off => {}
  | .alignment => { step := cfg.alignment_step, step_pos := cfg.alignment_step_pos }
  | .ends_with =>
    let step := cfg.ends_with_step
    { step, require := cfg.fast_tail &&& (step - 1), mask := step - 1, step_pos := cfg.ends_with_step_pos }

/-- The widths of an all-types scan, in order. -/
def kAllWidths : List value_width_t := [.u8, .u16, .u32, .u64, .f32, .f64]

/-- Under fastscan words need even addresses and the wider types need addresses
divisible by four. -/
def width_gate (fs : fastscan_t) (w : value_width_t) (addr : Nat) : Bool :=
  if fs.step ≤ 1 then true
  else
    match w with
    | .u16 | .i16 => addr % 2 == 0
    | .u32 | .i32 | .u64 | .i64 | .f32 | .f64 => addr % 4 == 0
    | _ => true

/-- What one worker collects. `reads` is not in the program: it keeps the reads
that succeeded, so that a row can be traced to the read it came from. -/
structure worker_out_t where
  results : List scan_result_t := []
  stash : List region_copy_t := []
  bytes_scanned : Nat := 0
  slots_scanned : Nat := 0
  regions_scanned : Nat := 0
  slots_tracked : Nat := 0
  truncated : Bool := false
  reads : List detail.run_t := []

/-- Append a row; the flag tells that the cap is reached. -/
def worker_out_t.push_result (cap : Nat) (out : worker_out_t) (row : scan_result_t) : worker_out_t × Bool :=
  let results := out.results ++ [row]
  if cap ≤ results.length then ({ out with results, truncated := true }, true)
  else ({ out with results }, false)

def worker_out_t.count_slot (out : worker_out_t) : worker_out_t :=
  { out with slots_scanned := out.slots_scanned + 1 }

def prev_bits (old : Option (List UInt8)) (off n : Nat) : BitVec 64 :=
  match old with
  | some old => load_bits (old.drop off) n
  | none => 0

/-- The widths of an all-types scan at one offset; the flag is the early return. -/
def scan_widths (cfg : scan_config_t) (fs : fastscan_t) (base : Nat) (data : List UInt8)
    (old : Option (List UInt8)) (off : Nat) : List value_width_t → worker_out_t → worker_out_t × Bool
  | [], out => (out, false)
  | w :: rest, out =>
    let n := value_size w
    if data.length < off + n then scan_widths cfg fs base data old off rest out
    else if !width_gate fs w (base + off) then scan_widths cfg fs base data old off rest out
    else
      let curr := load_bits (data.drop off) n
      if check_value cfg w curr (prev_bits old off n) then
        let (out, full) := out.push_result cfg.result_cap ⟨base + off, curr, w⟩
        if full then (out, true) else scan_widths cfg fs base data old off rest out
      else scan_widths cfg fs base data old off rest out

/-- One candidate offset of the run. -/
def scan_slot (cfg : scan_config_t) (fs : fastscan_t) (base : Nat) (data : List UInt8)
    (old : Option (List UInt8)) (off : Nat) (out : worker_out_t) : worker_out_t × Bool :=
  if cfg.scan_all_types then
    let (out, full) := scan_widths cfg fs base data old off kAllWidths out
    if full then (out, true) else (out.count_slot, false)
  else
    let slot := value_size cfg.width
    if data.length < off + slot then (out, true)
    else
      let curr := load_bits (data.drop off) slot
      let out := out.count_slot
      if check_value cfg cfg.width curr (prev_bits old off slot) then
        out.push_result cfg.result_cap ⟨base + off, curr, cfg.width⟩
      else (out, false)

def scan_offsets (cfg : scan_config_t) (fs : fastscan_t) (base : Nat) (data : List UInt8)
    (old : Option (List UInt8)) (last_off off : Nat) (out : worker_out_t) : worker_out_t :=
  if off ≤ last_off then
    match scan_slot cfg fs base data old off out with
    | (out, true) => out
    | (out, false) => scan_offsets cfg fs base data old last_off (off + fs.step) out
  else out
termination_by last_off + 1 - off
decreasing_by
  have := fs.step_pos
  omega

/-- The value kernel over one contiguous run; `old` holds the previous contents. -/
def scan_run (cfg : scan_config_t) (fs : fastscan_t) (base : Nat) (data : List UInt8)
    (old : Option (List UInt8)) (out : worker_out_t) : worker_out_t :=
  let slot := value_size cfg.width
  if slot = 0 then out
  else if cfg.result_cap ≤ out.results.length then { out with truncated := true }
  else
    let least := if cfg.scan_all_types then 1 else slot
    if data.length < least then out
    else scan_offsets cfg fs base data old (data.length - least) (fs.first_offset base) out

end slop.core.memory
