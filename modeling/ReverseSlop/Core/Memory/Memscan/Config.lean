import Mathlib.Tactic.SplitIfs
import ReverseSlop.Core.Infra.Limits
import ReverseSlop.Core.Memory.Reader

namespace slop.core.memory

open infra

inductive value_width_t where
  | i8 | u8 | i16 | u16 | i32 | u32 | i64 | u64 | f32 | f64
  deriving DecidableEq, Repr

def value_size : value_width_t → Nat
  | .i8 | .u8 => 1
  | .i16 | .u16 => 2
  | .i32 | .u32 | .f32 => 4
  | .i64 | .u64 | .f64 => 8

def width_is_signed (w : value_width_t) : Bool := w = .i8 || w = .i16 || w = .i32 || w = .i64

def width_is_float (w : value_width_t) : Bool := w = .f32 || w = .f64

theorem value_size_pos (w : value_width_t) : 0 < value_size w := by cases w <;> decide

inductive scan_type_t where
  | exact_value | between | bigger_than | smaller_than | unknown_initial | increased | increased_by
  | decreased | decreased_by | increased_percent | decreased_percent | changed | unchanged
  deriving DecidableEq, Repr

inductive rounding_t where
  | exact | rounded | truncated | extreme
  deriving DecidableEq, Repr

inductive fastscan_method_t where
  | off | alignment | ends_with
  deriving DecidableEq, Repr

inductive region_pref_t where
  | any | include | exclude
  deriving DecidableEq, Repr

structure scan_config_t where
  type : scan_type_t := .exact_value
  width : value_width_t := .u32
  scan_all_types : Bool := false
  rounding : rounding_t := .exact
  value1 : Float := 0
  value2 : Float := 0
  float_accuracy : Nat := 0
  fast : fastscan_method_t := .off
  fast_alignment : Nat := 4
  fast_digits : Nat := 0
  fast_tail : Nat := 0
  writable : region_pref_t := .any
  executable : region_pref_t := .any
  copy_on_write : region_pref_t := .any
  mem_private : Bool := true
  mem_image : Bool := true
  mem_mapped : Bool := true
  begin_addr : Nat := 0
  end_addr : Nat := 0
  max_results : Nat := 0
  threads : Nat := 0
  chunk_bytes : Nat := 0

def scan_config_t.result_cap (cfg : scan_config_t) : Nat :=
  if cfg.max_results ≠ 0 then cfg.max_results else limits.max_scan_hits

def scan_config_t.chunk (cfg : scan_config_t) : Nat :=
  if cfg.chunk_bytes ≠ 0 then cfg.chunk_bytes else limits.scan_chunk_bytes

theorem scan_config_t.chunk_pos (cfg : scan_config_t) : 0 < cfg.chunk := by
  simp only [chunk, limits.scan_chunk_bytes]
  split <;> omega

structure scan_result_t where
  address : Nat := 0
  bits : BitVec 64 := 0
  width : value_width_t := .u32
  deriving DecidableEq, Repr

/-- A copy of one run that was read. -/
structure region_copy_t where
  base : Nat := 0
  bytes : List UInt8

structure scan_stats_t where
  regions : Nat := 0
  regions_scanned : Nat := 0
  bytes_scanned : Nat := 0
  slots_scanned : Nat := 0
  found : Nat := 0
  slots_tracked : Nat := 0
  truncated : Bool := false
  cancelled : Bool := false

/-- The first `n` bytes, least significant first. -/
def load_bits (data : List UInt8) (n : Nat) : BitVec 64 :=
  BitVec.ofNat 64 ((data.take n).foldr (fun byte acc => byte.toNat + 256 * acc) 0)

def kPageNoAccess : BitVec 32 := 0x01

def kPageGuard : BitVec 32 := 0x100

def kPageNoCache : BitVec 32 := 0x200

def kPageWriteCombine : BitVec 32 := 0x400

def kMemImage : BitVec 32 := 0x1000000

def kMemMapped : BitVec 32 := 0x40000

def kMemPrivate : BitVec 32 := 0x20000

def has_flag (flags mask : BitVec 32) : Bool := flags &&& mask != 0

def pref_pass (pref : region_pref_t) (flag : Bool) : Bool :=
  match pref with
  | .any => true
  | .include => flag
  | .exclude => !flag

/-- The part of a region inside the caller's range, as `(rbase, rend)`. -/
def clip_region (cfg : scan_config_t) (reg : scan_region_t) : Option (Nat × Nat) :=
  let rbase := reg.base
  let rend := reg.base + reg.size
  if cfg.end_addr ≠ 0 ∧ cfg.end_addr ≤ rbase then none
  else
    let rend := if cfg.end_addr ≠ 0 ∧ cfg.end_addr < rend then cfg.end_addr else rend
    if cfg.begin_addr ≠ 0 ∧ rend ≤ cfg.begin_addr then none
    else
      let rbase := if cfg.begin_addr ≠ 0 ∧ rbase < cfg.begin_addr then cfg.begin_addr else rbase
      if rend ≤ rbase then none else some (rbase, rend)

theorem clip_region_bounds {cfg : scan_config_t} {reg : scan_region_t} {rbase rend : Nat}
    (hclip : clip_region cfg reg = some (rbase, rend)) :
    reg.base ≤ rbase ∧ rbase < rend ∧ rend ≤ reg.base + reg.size := by
  unfold clip_region at hclip
  dsimp only at hclip
  split_ifs at hclip <;> simp only [Option.some.injEq, Prod.mk.injEq] at hclip <;> omega

/-- Guard, no-access, uncached and write-combined pages are never scanned; the
rest has to agree with the memory types and with the three preferences. -/
def region_pass (cfg : scan_config_t) (reg : scan_region_t) : Bool :=
  let prot := reg.protect
  let is_image := has_flag reg.type kMemImage
  let is_mapped := has_flag reg.type kMemMapped
  let is_private := has_flag reg.type kMemPrivate
  let writable := has_flag prot 0x04 || has_flag prot 0x08 || has_flag prot 0x40 || has_flag prot 0x80
  let executable := has_flag prot 0x10 || has_flag prot 0x20 || has_flag prot 0x40 || has_flag prot 0x80
  let cow := has_flag prot 0x08 || has_flag prot 0x80
  !has_flag prot kPageGuard && !has_flag prot kPageNoAccess && !has_flag prot kPageNoCache &&
    !has_flag prot kPageWriteCombine &&
    !(is_image && !cfg.mem_image) && !(is_mapped && !cfg.mem_mapped) && !(is_private && !cfg.mem_private) &&
    pref_pass cfg.writable writable && pref_pass cfg.executable executable && pref_pass cfg.copy_on_write cow

def filter_region (cfg : scan_config_t) (reg : scan_region_t) : Option scan_region_t :=
  if reg.size = 0 then none
  else
    match hclip : clip_region cfg reg with
    | none => none
    | some (rbase, rend) =>
      if region_pass cfg reg then
        some {
          base := rbase
          size := rend - rbase
          protect := reg.protect
          type := reg.type
          in_user_space := by
            have hbounds := clip_region_bounds hclip
            have hspace := reg.in_user_space
            omega }
      else none

/-- Without a caller's range a region passes whole. -/
theorem filter_region_whole (cfg : scan_config_t) (reg : scan_region_t) (hsize : reg.size ≠ 0)
    (hbegin : cfg.begin_addr = 0) (hend : cfg.end_addr = 0) (hpass : region_pass cfg reg = true) :
    filter_region cfg reg = some reg := by
  have hclip : clip_region cfg reg = some (reg.base, reg.base + reg.size) := by
    have hroom : ¬ reg.base + reg.size ≤ reg.base := by omega
    simp only [clip_region, hbegin, hend, ne_eq, not_true_eq_false, false_and, if_false, hroom]
  unfold filter_region
  rw [if_neg hsize]
  split
  · next hnone => simp [hclip] at hnone
  · next rbase rend hsome =>
    rw [hclip] at hsome
    cases hsome
    simp [hpass]

def filter_regions (cfg : scan_config_t) (regions : List scan_region_t) : List scan_region_t :=
  regions.filterMap (filter_region cfg)

end slop.core.memory
