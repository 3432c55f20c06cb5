import Mathlib.Data.Nat.ModEq
import ReverseSlop.Core.Memory.Memscan.Rows

namespace slop.core.memory

open Capped

/-- The addresses that the fastscan asks for. -/
def scan_config_t.Constraint (cfg : scan_config_t) (addr : Nat) : Prop :=
  match cfg.fast with
  | .off => True
  | .alignment => cfg.alignment_step ∣ addr
  | .ends_with => addr % 16 ^ min cfg.fast_digits 8 = cfg.fast_tail % 16 ^ min cfg.fast_digits 8

/-- In an all-types scan with a stride, two bytes are compared at even addresses and more at multiples of four. -/
def scan_config_t.Gate (cfg : scan_config_t) (w : value_width_t) (addr : Nat) : Prop :=
  cfg.scan_all_types = true → 1 < (make_fastscan cfg).step → min (value_size w) 4 ∣ addr

/-- A slot of a run that the scan has to emit. -/
structure IsConstrainedSlot (cfg : scan_config_t) (base : Nat) (data : List UInt8) (old : Option (List UInt8)) (row : scan_result_t) :
    Prop where
  width : row.width ∈ cfg.widths
  low : base ≤ row.address
  fits : row.address + value_size row.width ≤ base + data.length
  constraint : cfg.Constraint row.address
  gate : cfg.Gate row.width row.address
  bits : row.bits = load_bits (data.drop (row.address - base)) (value_size row.width)
  check : check_value cfg row.width row.bits (prev_bits old (row.address - base) (value_size row.width)) = true

section

variable {cfg : scan_config_t} {fs : fastscan_t} {base step off last first t : Nat} {data : List UInt8} {old : Option (List UInt8)}
  {row : scan_result_t}

/-- A stride from the first offset reaches the offsets of one residue. -/
theorem exists_stride (hfirst : first < step) (ht : (base + first) % step = t) (off : Nat) :
    (∃ k, off = first + k * step) ↔ (base + off) % step = t := by
  constructor
  · rintro ⟨k, rfl⟩
    rw [← Nat.add_assoc, Nat.add_mul_mod_self_right, ht]
  · intro h
    have hsame : off % step = first % step := Nat.ModEq.add_left_cancel' base (h.trans ht.symm)
    rw [Nat.mod_eq_of_lt hfirst] at hsame
    refine ⟨off / step, ?_⟩
    rw [← hsame, Nat.mul_comm, Nat.mod_add_div]

private theorem first_offset_alignment (base : Nat) (hstep : 1 < step) (hpos : 0 < step) :
    let first := fastscan_t.first_offset ⟨step, 0, 0, hpos⟩ base
    first < step ∧ (base + first) % step = 0 := by
  dsimp only
  rw [fastscan_t.first_offset, if_neg (by dsimp only; omega), if_pos rfl]
  dsimp only
  have hmod := Nat.mod_lt base hpos
  split
  · have hsum : base + (step - base % step) = step * (base / step) + step := by
      have hdiv := Nat.div_add_mod base step
      omega
    rw [hsum, Nat.add_mod_right, Nat.mul_mod_right]
    omega
  · rename_i hzero
    rw [Nat.add_zero]
    exact ⟨hpos, not_not.mp hzero⟩

/-- The step of `ends_with` is a power of two. -/
theorem ends_with_step_eq (cfg : scan_config_t) : ∃ k ≤ 32, cfg.ends_with_step = 2 ^ k := by
  refine ⟨4 * min cfg.fast_digits 8, by omega, ?_⟩
  rw [Nat.pow_mul]
  rfl

private theorem first_offset_ends_with (base tail : Nat) {k : Nat} (hk : k ≤ 32) (hk' : 0 < k) (hpos : 0 < 2 ^ k) :
    let first := fastscan_t.first_offset ⟨2 ^ k, tail &&& (2 ^ k - 1), 2 ^ k - 1, hpos⟩ base
    first < 2 ^ k ∧ (base + first) % 2 ^ k = tail % 2 ^ k := by
  have htwo : 2 ≤ 2 ^ k := by
    rw [show k = k - 1 + 1 by omega, Nat.pow_succ]
    have h := Nat.pow_pos (n := k - 1) (show 0 < 2 by omega)
    omega
  have hdvd : 2 ^ k ∣ 2 ^ 64 := Nat.pow_dvd_pow 2 (by omega)
  have hmod := Nat.mod_lt base hpos
  dsimp only
  rw [fastscan_t.first_offset, if_neg (by dsimp only; omega), if_neg (by dsimp only; omega)]
  dsimp only
  rw [Nat.and_two_pow_sub_one_eq_mod, Nat.and_two_pow_sub_one_eq_mod, Nat.and_two_pow_sub_one_eq_mod]
  by_cases hcur : base % 2 ^ k = tail % 2 ^ k
  · rw [if_pos hcur, Nat.add_zero]
    exact ⟨hpos, hcur⟩
  rw [if_neg hcur]
  have hsum : (base + Word.sub64 (tail % 2 ^ k) (base % 2 ^ k) % 2 ^ k) % 2 ^ k = tail % 2 ^ k := by
    have hlarge : 2 ^ k ≤ 2 ^ 64 := Nat.le_of_dvd (by decide) hdvd
    rw [Word.sub64, Nat.mod_mod_of_dvd _ hdvd, Nat.mod_eq_of_lt (show base % 2 ^ k < 2 ^ 64 by omega), Nat.add_mod_mod]
    obtain ⟨q, hq⟩ := hdvd
    have hdiv := Nat.div_add_mod base (2 ^ k)
    have hregroup : base + (tail % 2 ^ k + (2 ^ 64 - base % 2 ^ k)) = tail % 2 ^ k + 2 ^ k * (base / 2 ^ k) + 2 ^ k * q := by
      omega
    rw [hregroup, Nat.add_mul_mod_self_left, Nat.add_mul_mod_self_left, Nat.mod_mod]
  rw [if_pos]
  · exact ⟨Nat.mod_lt _ hpos, hsum⟩
  · intro hzero
    rw [hzero, Nat.add_zero] at hsum
    exact hcur hsum

private theorem exists_unit_stride (off : Nat) : ∃ k, off = 0 + k * 1 := ⟨off, by omega⟩

private theorem stride_alignment (hpos : 0 < step) (off : Nat) :
    (∃ k, off = fastscan_t.first_offset ⟨step, 0, 0, hpos⟩ base + k * step) ↔ step ∣ base + off := by
  by_cases hstep : step = 1
  · subst hstep
    exact ⟨fun _ => Nat.one_dvd _, fun _ => exists_unit_stride off⟩
  · obtain ⟨hfirst, hzero⟩ := first_offset_alignment base (show 1 < step by omega) hpos
    rw [exists_stride hfirst hzero, Nat.dvd_iff_mod_eq_zero]

private theorem stride_ends_with {tail : Nat} (hpos : 0 < step) (hpow : ∃ k ≤ 32, step = 2 ^ k) (off : Nat) :
    (∃ k, off = fastscan_t.first_offset ⟨step, tail &&& (step - 1), step - 1, hpos⟩ base + k * step) ↔
      (base + off) % step = tail % step := by
  obtain ⟨k, hk, rfl⟩ := hpow
  by_cases hk' : k = 0
  · subst hk'
    exact ⟨fun _ => (Nat.mod_one _).trans (Nat.mod_one _).symm, fun _ => exists_unit_stride off⟩
  · obtain ⟨hfirst, htail⟩ := first_offset_ends_with base tail hk (by omega) hpos
    exact exists_stride hfirst htail off

/-- The offsets of the loop are those of the addresses that the fastscan asks for. -/
theorem exists_stride_iff (cfg : scan_config_t) (base off : Nat) :
    (∃ k, off = (make_fastscan cfg).first_offset base + k * (make_fastscan cfg).step) ↔ cfg.Constraint (base + off) := by
  rw [make_fastscan, scan_config_t.Constraint]
  cases hfast : cfg.fast with
  | off => exact ⟨fun _ => trivial, fun _ => exists_unit_stride off⟩
  | alignment => exact stride_alignment cfg.alignment_step_pos off
  | ends_with => exact stride_ends_with cfg.ends_with_step_pos (ends_with_step_eq cfg) off

private theorem mem_offset_rows : row ∈ offset_rows cfg fs base data old last off ↔
    ∃ k, off + k * fs.step ≤ last ∧ row ∈ slot_rows cfg fs base data old (off + k * fs.step) := by
  fun_induction offset_rows cfg fs base data old last off with
  | case1 off hle ih =>
    rw [List.mem_append, ih]
    constructor
    · rintro (hrow | ⟨k, hlast, hrow⟩)
      · exact ⟨0, by omega, by rwa [Nat.zero_mul, Nat.add_zero]⟩
      · refine ⟨k + 1, ?_, ?_⟩
        · rw [Nat.add_mul]
          omega
        · rwa [Nat.add_mul, Nat.one_mul, Nat.add_comm (k * fs.step), ← Nat.add_assoc]
    · rintro ⟨k, hlast, hrow⟩
      cases k with
      | zero => exact .inl (by rwa [Nat.zero_mul, Nat.add_zero] at hrow)
      | succ k =>
        rw [Nat.add_mul, Nat.one_mul, Nat.add_comm (k * fs.step), ← Nat.add_assoc] at hlast hrow
        exact .inr ⟨k, hlast, hrow⟩
  | case2 off hgt =>
    constructor
    · exact fun hrow => absurd hrow List.not_mem_nil
    · rintro ⟨k, hlast, -⟩
      omega

private theorem mem_width_row {w : value_width_t} : row ∈ width_row cfg base data old off w ↔
    row.width = w ∧ row.address = base + off ∧ off + value_size w ≤ data.length ∧
      row.bits = load_bits (data.drop off) (value_size w) ∧
      check_value cfg w row.bits (prev_bits old off (value_size w)) = true := by
  rw [width_row]
  split
  · rename_i hfits
    rw [List.mem_singleton]
    constructor
    · rintro rfl
      exact ⟨rfl, rfl, hfits.1, rfl, hfits.2⟩
    · rintro ⟨hw, haddress, -, hbits, -⟩
      rw [← haddress, ← hbits, ← hw]
  · rename_i hnot
    constructor
    · exact fun hrow => absurd hrow List.not_mem_nil
    · rintro ⟨-, -, hfits, hbits, hcheck⟩
      rw [hbits] at hcheck
      exact absurd ⟨hfits, hcheck⟩ hnot

/-- Of the widths of an all-types scan none is a signed one, so that the gate is the one of the sizes. -/
theorem width_gate_iff {w : value_width_t} (hw : w ∈ kAllWidths) (addr : Nat) :
    width_gate fs w addr = true ↔ (1 < fs.step → min (value_size w) 4 ∣ addr) := by
  unfold width_gate
  by_cases hstep : fs.step ≤ 1
  · rw [if_pos hstep]
    exact ⟨fun _ h => absurd hstep (by omega), fun _ => rfl⟩
  · rw [if_neg hstep]
    have hlt : 1 < fs.step := by omega
    simp only [kAllWidths, List.mem_cons, List.not_mem_nil, or_false] at hw
    have hdvd : ∀ n, (addr % n == 0) = true ↔ (1 < fs.step → n ∣ addr) := by
      intro n
      rw [beq_iff_eq, ← Nat.dvd_iff_mod_eq_zero]
      exact ⟨fun h _ => h, fun h => h hlt⟩
    rcases hw with rfl | rfl | rfl | rfl | rfl | rfl
    · exact ⟨fun _ _ => Nat.one_dvd _, fun _ => rfl⟩
    · exact hdvd 2
    · exact hdvd 4
    · exact hdvd 4
    · exact hdvd 4
    · exact hdvd 4

private theorem mem_slot_rows : row ∈ slot_rows cfg (make_fastscan cfg) base data old off ↔
    row.width ∈ cfg.widths ∧ row.address = base + off ∧ off + value_size row.width ≤ data.length ∧
      cfg.Gate row.width (base + off) ∧ row.bits = load_bits (data.drop off) (value_size row.width) ∧
      check_value cfg row.width row.bits (prev_bits old off (value_size row.width)) = true := by
  rw [slot_rows, scan_config_t.widths]
  simp only [scan_config_t.Gate]
  cases cfg.scan_all_types with
  | true =>
    rw [if_pos rfl, if_pos rfl, List.mem_flatMap]
    constructor
    · rintro ⟨w, hw, hrow⟩
      obtain ⟨hmem, hgate⟩ := List.mem_filter.mp hw
      obtain ⟨rfl, haddress, hfits, hbits, hcheck⟩ := mem_width_row.mp hrow
      exact ⟨hmem, haddress, hfits, fun _ => (width_gate_iff hmem _).mp hgate, hbits, hcheck⟩
    · rintro ⟨hmem, haddress, hfits, hgate, hbits, hcheck⟩
      exact ⟨row.width, List.mem_filter.mpr ⟨hmem, (width_gate_iff hmem _).mpr (hgate rfl)⟩,
        mem_width_row.mpr ⟨rfl, haddress, hfits, hbits, hcheck⟩⟩
  | false =>
    rw [if_neg Bool.false_ne_true, if_neg Bool.false_ne_true, List.mem_singleton]
    constructor
    · intro hrow
      obtain ⟨hw, haddress, hfits, hbits, hcheck⟩ := mem_width_row.mp hrow
      rw [hw]
      exact ⟨rfl, haddress, hfits, fun h => absurd h Bool.false_ne_true, hbits, hcheck⟩
    · rintro ⟨hw, haddress, hfits, -, hbits, hcheck⟩
      rw [← hw]
      exact mem_width_row.mpr ⟨rfl, haddress, hfits, hbits, hcheck⟩

/-- The rows of a run are its slots. -/
theorem mem_run_rows : row ∈ run_rows cfg (make_fastscan cfg) base data old ↔ IsConstrainedSlot cfg base data old row := by
  have hrows : row ∈ run_rows cfg (make_fastscan cfg) base data old ↔
      ∃ off, off + cfg.least ≤ data.length ∧ cfg.Constraint (base + off) ∧
        row ∈ slot_rows cfg (make_fastscan cfg) base data old off := by
    rw [run_rows]
    split
    · constructor
      · exact fun hrow => absurd hrow List.not_mem_nil
      · rintro ⟨off, hfits, -, -⟩
        omega
    · rw [mem_offset_rows]
      constructor
      · rintro ⟨k, hlast, hrow⟩
        exact ⟨_, by omega, (exists_stride_iff cfg base _).mp ⟨k, rfl⟩, hrow⟩
      · rintro ⟨off, hfits, hconstraint, hrow⟩
        obtain ⟨k, rfl⟩ := (exists_stride_iff cfg base off).mpr hconstraint
        exact ⟨k, by omega, hrow⟩
  rw [hrows]
  constructor
  · rintro ⟨off, -, hconstraint, hrow⟩
    obtain ⟨hw, haddress, hfits, hgate, hbits, hcheck⟩ := mem_slot_rows.mp hrow
    have hoff : row.address - base = off := by omega
    rw [← haddress] at hconstraint hgate
    exact ⟨hw, by omega, by omega, hconstraint, hgate, by rwa [hoff], by rwa [hoff]⟩
  · rintro ⟨hw, hlow, hfits, hconstraint, hgate, hbits, hcheck⟩
    have hleast := scan_config_t.least_le hw
    have haddress : row.address = base + (row.address - base) := by omega
    exact ⟨row.address - base, by omega, by rwa [← haddress],
      mem_slot_rows.mpr ⟨hw, haddress, by omega, by rwa [← haddress], hbits, hcheck⟩⟩

end

/-- While the cap is not reached, the rows that the scan of a run emits are its slots, each once and in the order of
their addresses. -/
theorem scan_run_slots (cfg : scan_config_t) (base : Nat) (data : List UInt8) (old : Option (List UInt8)) (out : worker_out_t) :
    ∃ rows : List scan_result_t,
      (∀ row, row ∈ rows ↔ IsConstrainedSlot cfg base data old row) ∧ (rows.map scan_result_t.key).Nodup ∧
        rows.Pairwise (fun row row' => row.address ≤ row'.address) ∧
        ((scan_run cfg (make_fastscan cfg) base data old out).truncated = false →
          (scan_run cfg (make_fastscan cfg) base data old out).results = out.results ++ rows) ∧
        (out.truncated = false → out.results.length + rows.length < cfg.result_cap →
          (scan_run cfg (make_fastscan cfg) base data old out).truncated = false) := by
  have hadds := adds_scan_run cfg (make_fastscan cfg) base data old out
  have hkeys := keys_run_rows cfg (make_fastscan cfg) base data old
  refine ⟨_, fun row => mem_run_rows, hkeys.nodup (keys_nodup cfg List.nodup_range'), ?_, hadds.complete, hadds.room⟩
  have hsorted := (keys_sorted cfg base data.length).sublist hkeys
  rwa [List.pairwise_map] at hsorted

/-- All types at even addresses. -/
def even_scan : scan_config_t := { type := .unknown_initial, scan_all_types := true, fast := .alignment, fast_alignment := 2 }

/-- Bytes at addresses that end in nine zeros. -/
def nine_digits_scan : scan_config_t := { type := .unknown_initial, width := .u8, fast := .ends_with, fast_digits := 9 }

/-- Few bytes have few rows. -/
theorem run_rows_few {cfg : scan_config_t} {base : Nat} {data : List UInt8}
    (hfew : ((List.range' base data.length).flatMap cfg.keys_at).length < cfg.result_cap) :
    ({} : worker_out_t).rows.items.length + (run_rows cfg (make_fastscan cfg) base data none).length < cfg.result_cap := by
  have hlen := (keys_run_rows cfg (make_fastscan cfg) base data none).length_le
  rw [List.length_map] at hlen
  change 0 + _ < _
  omega

/-- The four bytes at 2 are left out at even addresses, and of nine digits eight are compared. -/
theorem fastscan_slots_differ :
    (¬ ∀ (cfg : scan_config_t) (base : Nat) (data : List UInt8) (old : Option (List UInt8)) (row : scan_result_t),
      (scan_run cfg (make_fastscan cfg) base data old {}).truncated = false → row.width ∈ cfg.widths → base ≤ row.address →
      row.address + value_size row.width ≤ base + data.length → cfg.Constraint row.address →
      row.bits = load_bits (data.drop (row.address - base)) (value_size row.width) →
      check_value cfg row.width row.bits (prev_bits old (row.address - base) (value_size row.width)) = true →
      row ∈ (scan_run cfg (make_fastscan cfg) base data old {}).results) ∧
    ¬ ∀ (cfg : scan_config_t) (base : Nat) (data : List UInt8) (old : Option (List UInt8)) (row : scan_result_t),
      cfg.fast = .ends_with → row ∈ (scan_run cfg (make_fastscan cfg) base data old {}).results →
      row.address % 16 ^ cfg.fast_digits = cfg.fast_tail % 16 ^ cfg.fast_digits := by
  constructor
  · intro hall
    have hadds := adds_scan_run even_scan (make_fastscan even_scan) 0 [0, 0, 0, 0, 0, 0] none {}
    have hroom := hadds.room rfl (run_rows_few (by decide))
    have hrow := hall even_scan 0 [0, 0, 0, 0, 0, 0] none ⟨2, 0, .u32⟩ hroom (by decide) (by decide) (by decide) ⟨1, rfl⟩ rfl rfl
    have hitems := hadds.complete hroom
    rw [show (scan_run _ _ _ _ _ _).results = _ from hitems] at hrow
    have hslot : IsConstrainedSlot even_scan 0 [0, 0, 0, 0, 0, 0] none ⟨2, 0, .u32⟩ := mem_run_rows.mp hrow
    exact absurd (hslot.gate rfl (by decide)) (by decide)
  · intro hall
    have hadds := adds_scan_run nine_digits_scan (make_fastscan nine_digits_scan) (2 ^ 32) [0] none {}
    have hitems := hadds.complete (hadds.room rfl (run_rows_few (by decide)))
    have hslot : IsConstrainedSlot nine_digits_scan (2 ^ 32) [0] none ⟨2 ^ 32, 0, .u8⟩ := by
      refine ⟨by decide, by decide, by decide, ?_, fun h => absurd h (by decide), rfl, rfl⟩
      change 2 ^ 32 % 16 ^ 8 = 0 % 16 ^ 8
      decide
    have hrow : ⟨2 ^ 32, 0, .u8⟩ ∈ (scan_run nine_digits_scan (make_fastscan nine_digits_scan) (2 ^ 32) [0] none {}).results := by
      rw [show (scan_run _ _ _ _ _ _).results = _ from hitems]
      exact mem_run_rows.mpr hslot
    have hend := hall nine_digits_scan (2 ^ 32) [0] none _ rfl hrow
    exact absurd hend (by decide)

end slop.core.memory
