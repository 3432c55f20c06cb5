import Mathlib.Data.List.DropRight
import ReverseSlop.Core.Memory.Memscan.ScanRun
import ReverseSlop.Library.Binary64
import ReverseSlop.Library.Bytes
import ReverseSlop.Library.Numeral

namespace slop.core.memory

def is_blank (c : UInt8) : Bool := c = 32 || c = 9

/-- The low bytes of a value. -/
def mask_bits (w : value_width_t) (bits : BitVec 64) : BitVec 64 :=
  let n := value_size w
  if n < 8 then bits &&& ((1#64 <<< (n * 8) - 1)) else bits

/-- `strtod` gives a number and what is behind it. -/
def parse_value_text (strtod : List UInt8 → Float × List UInt8) (w : value_width_t) (text : List UInt8) : Option (BitVec 64) :=
  let text := (text.dropWhile is_blank).rdropWhile is_blank
  if text = [] ∨ text.length ≥ 64 then none
  else if width_is_float w then
    let out := strtod text
    if out.2 ≠ [] then none else some (value_from_double w out.1)
  else
    let out := Numeral.strto text
    let v : Int := if out.1 then -(out.2.1 : Int) else out.2.1
    if width_is_signed w then
      if v < -2 ^ 63 ∨ v ≥ 2 ^ 63 ∨ out.2.2 ≠ [] then none else some (mask_bits w (BitVec.ofInt 64 v))
    else if text.head? = some 45 then none
    else if out.2.1 ≥ 2 ^ 64 ∨ out.2.2 ≠ [] then none
    else some (mask_bits w (BitVec.ofInt 64 v))

/-- The integer comparison once the operands are in the signed 64-bit space. -/
def int_compare (type : scan_type_t) (w : value_width_t) (s1 s2 curr prev : BitVec 64) : Bool :=
  let sc := if width_is_signed w then sign_extend curr w else curr
  let sp := if width_is_signed w then sign_extend prev w else prev
  match type with
  | .unknown_initial => true
  | .changed => curr != prev
  | .unchanged => curr == prev
  | .increased_percent | .decreased_percent => false
  | .exact_value => sc == s1
  | .between => s1.sle sc && sc.sle s2
  | .bigger_than => s1.slt sc
  | .smaller_than => sc.slt s1
  | .increased => sp.slt sc
  | .decreased => sc.slt sp
  | .increased_by => sc - sp == s1
  | .decreased_by => sp - sc == s1

/-! The conversions of an integer width, on doubles that are integers. -/
namespace integral

def lowest (w : value_width_t) : Int := if width_is_signed w then -2 ^ (8 * value_size w - 1) else 0

def highest (w : value_width_t) : Int :=
  if width_is_signed w then 2 ^ (8 * value_size w - 1) - 1 else 2 ^ (8 * value_size w) - 1

/-- The number that some bits stand for. -/
def value (w : value_width_t) (bits : BitVec 64) : Int := if width_is_signed w then (sign_extend bits w).toInt else bits.toNat

def value_to_double (w : value_width_t) (bits : BitVec 64) : Int := Binary64.round (value w bits)

/-- Out of the range of the type the cast is undefined. -/
def value_from_double (w : value_width_t) (v : Int) : Option (BitVec 64) :=
  if lowest w ≤ v ∧ v ≤ highest w then some ((BitVec.ofInt (8 * value_size w) v).setWidth 64) else none

def operand (w : value_width_t) (v : Int) : Option (BitVec 64) :=
  (value_from_double w v).map fun bits =>
    let bits := mask_bits w bits
    if width_is_signed w then sign_extend bits w else bits

/-- The check of a scan with operands, unless one of them has no defined value. -/
def int_check (type : scan_type_t) (w : value_width_t) (value1 value2 : Int) (curr prev : BitVec 64) : Option Bool := do
  let s1 ← operand w value1
  let s2 ← operand w value2
  some (int_compare type w s1 s2 curr prev)

/-- What a number is in the signed 64-bit space. -/
def wrapped (w : value_width_t) (x : Int) : Int := if w = .u64 ∧ 2 ^ 63 ≤ x then x - 2 ^ 64 else x

/-- The bits fit the width. -/
def Fits (w : value_width_t) (bits : BitVec 64) : Prop := bits.toNat < 2 ^ (8 * value_size w)

instance (w : value_width_t) (bits : BitVec 64) : Decidable (Fits w bits) := inferInstanceAs (Decidable (_ < _))

section

variable {w : value_width_t} {v : Int} {bits bits' curr : BitVec 64}

theorem toNat_mask_bits (w : value_width_t) (bits : BitVec 64) :
    (mask_bits w bits).toNat = bits.toNat % 2 ^ (8 * value_size w) := by
  have hmask : ∀ k < 64, (1#64 <<< k - 1).toNat = 2 ^ k - 1 := by decide
  have hsize : value_size w < 8 ∨ value_size w = 8 := by cases w <;> decide
  rw [mask_bits]
  rcases hsize with hlt | heq
  · rw [if_pos hlt, BitVec.toNat_and, hmask _ (by omega), Nat.and_two_pow_sub_one_eq_mod, Nat.mul_comm]
  · rw [if_neg (by omega), heq, Nat.mod_eq_of_lt bits.isLt]

theorem fits_mask_bits (w : value_width_t) (bits : BitVec 64) : Fits w (mask_bits w bits) := by
  rw [Fits, toNat_mask_bits]
  exact Nat.mod_lt _ (Nat.pow_pos (by omega))

private theorem mask_bits_of_fits (h : Fits w bits) : mask_bits w bits = bits :=
  BitVec.eq_of_toNat_eq (by rw [toNat_mask_bits, Nat.mod_eq_of_lt h])

private theorem toInt_sign_extend (hsigned : width_is_signed w = true) (bits : BitVec 64) :
    (sign_extend bits w).toInt = (bits.setWidth (8 * value_size w)).toInt := by
  cases w with
  | i8 | i16 | i32 => exact BitVec.toInt_signExtend_of_le (by decide)
  | i64 => exact congrArg BitVec.toInt (BitVec.setWidth_eq bits).symm
  | _ => cases hsigned

/-- A signed number is negative from the middle of the range on. -/
theorem value_eq (h : Fits w bits) :
    value w bits = if width_is_signed w ∧ 2 ^ (8 * value_size w) ≤ 2 * bits.toNat then (bits.toNat : Int) - 2 ^ (8 * value_size w)
      else bits.toNat := by
  rw [value]
  split
  · rename_i hsigned
    rw [toInt_sign_extend hsigned, BitVec.toInt_eq_toNat_cond, BitVec.toNat_setWidth, Nat.mod_eq_of_lt h]
    simp only [hsigned, true_and, ← Nat.not_lt, ite_not]
    push_cast
    rfl
  · rename_i hsigned
    rw [if_neg (fun hneg => hsigned hneg.1)]

private theorem pow_size (w : value_width_t) : 2 ^ (8 * value_size w) = 2 * 2 ^ (8 * value_size w - 1) := by
  have hpos := value_size_pos w
  rw [← Nat.pow_succ', show (8 * value_size w - 1).succ = 8 * value_size w by omega]

/-- The range of a width holds the numbers that its bits stand for. -/
theorem value_mem_range (h : Fits w bits) : lowest w ≤ value w bits ∧ value w bits ≤ highest w := by
  have hpow := pow_size w
  have hcast := congrArg (Nat.cast (R := Int)) hpow
  rw [value_eq h, lowest, highest]
  rw [Fits] at h
  push_cast at hcast
  rw [hcast]
  generalize hhalf : (2 : Int) ^ (8 * value_size w - 1) = half at *
  have hnat : ((2 ^ (8 * value_size w - 1) : Nat) : Int) = half := by push_cast; exact hhalf
  generalize 2 ^ (8 * value_size w - 1) = half' at *
  split <;> split <;> grind

/-- A number within the range is what its bits stand for. -/
theorem value_from_double_spec (hv : lowest w ≤ v ∧ v ≤ highest w) :
    ∃ bits, value_from_double w v = some bits ∧ Fits w bits ∧ value w bits = v := by
  refine ⟨_, if_pos hv, ?_⟩
  have hsize : 8 * value_size w ≤ 64 := by cases w <;> decide
  have hpos : 0 < 2 ^ (8 * value_size w) := Nat.pow_pos (by omega)
  have hpow := pow_size w
  have hnat : ((BitVec.ofInt (8 * value_size w) v).setWidth 64).toNat = (v % (2 ^ (8 * value_size w) : Nat)).toNat := by
    rw [BitVec.toNat_setWidth, BitVec.toNat_ofInt, Nat.mod_eq_of_lt]
    exact lt_of_lt_of_le (by omega) (Nat.pow_le_pow_right (by omega) hsize)
  have hfits : Fits w ((BitVec.ofInt (8 * value_size w) v).setWidth 64) := by
    rw [Fits, hnat]
    omega
  refine ⟨hfits, ?_⟩
  have hcast : ((2 ^ (8 * value_size w - 1) : Nat) : Int) = 2 ^ (8 * value_size w - 1) := by push_cast; rfl
  have hcast' : ((2 ^ (8 * value_size w) : Nat) : Int) = 2 ^ (8 * value_size w) := by push_cast; rfl
  rw [value_eq hfits, hnat]
  rw [lowest, highest] at hv
  generalize 2 ^ (8 * value_size w - 1) = half at *
  generalize 2 ^ (8 * value_size w) = size at *
  have hmod : v % (size : Int) = if v < 0 then v + size else v := by
    split
    · rw [← Int.add_emod_right, Int.emod_eq_of_lt] <;> grind
    · rw [Int.emod_eq_of_lt] <;> grind
  rw [hmod]
  grind

theorem value_injective (h : Fits w bits) (h' : Fits w bits') (heq : value w bits = value w bits') : bits = bits' := by
  refine BitVec.eq_of_toNat_eq ?_
  have hpow := pow_size w
  rw [value_eq h, value_eq h'] at heq
  rw [Fits] at h h'
  grind

private theorem toInt_widened (hw : width_is_float w = false) (h : Fits w bits) :
    (if width_is_signed w then sign_extend bits w else bits).toInt = wrapped w (value w bits) := by
  by_cases hsigned : width_is_signed w = true
  · have hne : w ≠ .u64 := by
      rintro rfl
      cases hsigned
    rw [if_pos hsigned, wrapped, if_neg (fun h => hne h.1), value, if_pos hsigned]
  · rw [if_neg hsigned, value, if_neg hsigned, BitVec.toInt_eq_toNat_cond]
    rw [Fits] at h
    simp only [wrapped]
    cases w with
    | u8 | u16 | u32 | u64 =>
      simp only [value_size] at h
      grind
    | _ => simp_all [width_is_signed, width_is_float]

private theorem operand_spec (hw : width_is_float w = false) (hv : lowest w ≤ v ∧ v ≤ highest w) :
    ∃ s, operand w v = some s ∧ s.toInt = wrapped w v := by
  obtain ⟨bits, hbits, hfits, rfl⟩ := value_from_double_spec hv
  refine ⟨_, by rw [operand, hbits, Option.map_some], ?_⟩
  rw [mask_bits_of_fits hfits]
  exact toInt_widened hw hfits

private theorem zero_mem_range (w : value_width_t) : lowest w ≤ 0 ∧ 0 ≤ highest w := by cases w <;> decide

private theorem wrapped_injective {x y : Int} (hx : lowest w ≤ x ∧ x ≤ highest w) (hy : lowest w ≤ y ∧ y ≤ highest w)
    (heq : wrapped w x = wrapped w y) : x = y := by
  by_cases hw : w = .u64
  · subst hw
    simp only [wrapped, lowest, highest, width_is_signed, value_size] at *
    grind
  · simpa only [wrapped, hw, false_and, if_false] using heq

theorem exact_check (hw : width_is_float w = false) (hv : lowest w ≤ v ∧ v ≤ highest w) (hcurr : Fits w curr)
    (prev : BitVec 64) : int_check .exact_value w v 0 curr prev = some (decide (value w curr = v)) := by
  obtain ⟨s, hs, hwrapped⟩ := operand_spec hw hv
  obtain ⟨zero, hzero, -⟩ := operand_spec hw (zero_mem_range w)
  have hcheck : int_check .exact_value w v 0 curr prev =
      some ((if width_is_signed w then sign_extend curr w else curr) == s) := by
    rw [int_check, hs, hzero]
    rfl
  rw [hcheck, beq_eq_decide]
  refine congrArg some (decide_eq_decide.mpr ?_)
  rw [← BitVec.toInt_inj, toInt_widened hw hcurr, hwrapped]
  exact ⟨wrapped_injective (value_mem_range hcurr) hv, congrArg _⟩

theorem between_check {v' : Int} (hw : width_is_float w = false) (hv : lowest w ≤ v ∧ v ≤ highest w)
    (hv' : lowest w ≤ v' ∧ v' ≤ highest w) (hcurr : Fits w curr) (prev : BitVec 64) :
    int_check .between w v v' curr prev =
      some (decide (wrapped w v ≤ wrapped w (value w curr) ∧ wrapped w (value w curr) ≤ wrapped w v')) := by
  obtain ⟨s, hs, hwrapped⟩ := operand_spec hw hv
  obtain ⟨s', hs', hwrapped'⟩ := operand_spec hw hv'
  have hcheck : int_check .between w v v' curr prev =
      some (s.sle (if width_is_signed w then sign_extend curr w else curr) &&
        (if width_is_signed w then sign_extend curr w else curr).sle s') := by
    rw [int_check, hs, hs']
    rfl
  rw [hcheck, BitVec.sle, BitVec.sle, toInt_widened hw hcurr, hwrapped, hwrapped', Bool.decide_and]

end

end integral

end slop.core.memory

namespace slop.core.memory.integral

/-- Two numbers are on one side of the middle of the unsigned 64-bit range. -/
def SameSide (w : value_width_t) (x y : Int) : Prop := w = .u64 → (x < 2 ^ 63 ↔ y < 2 ^ 63)

section

variable {type : scan_type_t} {w : value_width_t} {v v' x y : Int} {curr prev s : BitVec 64}

private theorem wrapped_lt (hside : SameSide w x y) : wrapped w x < wrapped w y ↔ x < y := by
  by_cases hw : w = .u64
  · have hiff := hside hw
    simp only [wrapped, hw, true_and]
    grind
  · simp only [wrapped, hw, false_and, if_false]

private theorem wrapped_le (hside : SameSide w x y) : wrapped w x ≤ wrapped w y ↔ x ≤ y := by
  have hside' : SameSide w y x := fun hw => (hside hw).symm
  rw [← Int.not_lt, wrapped_lt hside', Int.not_lt]

private theorem slt_eq {a b : BitVec 64} (ha : a.toInt = wrapped w x) (hb : b.toInt = wrapped w y) (hside : SameSide w x y) :
    a.slt b = decide (x < y) := by
  rw [BitVec.slt, ha, hb]
  exact decide_eq_decide.mpr (wrapped_lt hside)

/-- The check compares the number of the slot, widened, with the widened operands. -/
theorem int_check_widened (hw : width_is_float w = false) (hv : lowest w ≤ v ∧ v ≤ highest w)
    (hv' : lowest w ≤ v' ∧ v' ≤ highest w) (type : scan_type_t) (curr prev : BitVec 64) :
    ∃ s s', int_check type w v v' curr prev = some (int_compare type w s s' curr prev) ∧ s.toInt = wrapped w v ∧
      s'.toInt = wrapped w v' := by
  obtain ⟨s, hs, hwrapped⟩ := operand_spec hw hv
  obtain ⟨s', hs', hwrapped'⟩ := operand_spec hw hv'
  refine ⟨s, s', ?_, hwrapped, hwrapped'⟩
  rw [int_check, hs, hs']
  rfl

/-- The difference of two widened numbers. -/
theorem sub_eq_iff {sc sp : BitVec 64} (hsc : sc.toInt = wrapped w x) (hsp : sp.toInt = wrapped w y) (hs : s.toInt = wrapped w v) :
    sc - sp = s ↔ (x - y) % 2 ^ 64 = v % 2 ^ 64 := by
  have hmod : ∀ z, wrapped w z % 2 ^ 64 = z % 2 ^ 64 := by
    intro z
    rw [wrapped]
    split
    · exact Int.sub_emod_right z (2 ^ 64)
    · rfl
  have hrange := s.toInt_lt
  have hrange' := s.le_toInt
  rw [← BitVec.toInt_inj, BitVec.toInt_sub, hsc, hsp, hs, Int.sub_emod, ← hmod x, ← hmod y, ← hmod v, ← Int.sub_emod]
  rw [hs] at hrange hrange'
  generalize wrapped w x - wrapped w y = difference
  generalize wrapped w v = operand at hrange hrange' ⊢
  rw [Int.bmod_def]
  omega

/-- Of a narrow width no difference wraps around. -/
theorem sub_mod_iff (hsize : value_size w < 8) (hx : lowest w ≤ x ∧ x ≤ highest w) (hy : lowest w ≤ y ∧ y ≤ highest w)
    (hv : lowest w ≤ v ∧ v ≤ highest w) : (x - y) % 2 ^ 64 = v % 2 ^ 64 ↔ x - y = v := by
  have hbounds : -2 ^ 32 ≤ lowest w ∧ highest w < 2 ^ 32 := by
    revert hsize
    cases w <;> decide
  omega

private theorem by_iff (hx : lowest w ≤ x ∧ x ≤ highest w) (hy : lowest w ≤ y ∧ y ≤ highest w) (hv : lowest w ≤ v ∧ v ≤ highest w) :
    (if value_size w < 8 then x - y = v else (x - y) % 2 ^ 64 = v % 2 ^ 64) ↔ (x - y) % 2 ^ 64 = v % 2 ^ 64 := by
  split
  · exact (sub_mod_iff ‹_› hx hy hv).symm
  · exact Iff.rfl

end

/-- The comparisons of a width follow the order of its numbers, where these are on one side of the middle of the
unsigned 64-bit range. The differences of the narrow widths are exact, those of the 64-bit ones modulo 2^64. -/
theorem int_check_order {w : value_width_t} {v v' : Int} {curr prev : BitVec 64} (hw : width_is_float w = false)
    (hv : lowest w ≤ v ∧ v ≤ highest w) (hv' : lowest w ≤ v' ∧ v' ≤ highest w) (hcurr : Fits w curr) (hprev : Fits w prev) :
    (SameSide w (value w curr) v → SameSide w (value w curr) v' →
        int_check .between w v v' curr prev = some (decide (v ≤ value w curr ∧ value w curr ≤ v'))) ∧
      (SameSide w (value w curr) v →
        int_check .bigger_than w v v' curr prev = some (decide (v < value w curr)) ∧
          int_check .smaller_than w v v' curr prev = some (decide (value w curr < v))) ∧
      (SameSide w (value w curr) (value w prev) →
        int_check .increased w v v' curr prev = some (decide (value w prev < value w curr)) ∧
          int_check .decreased w v v' curr prev = some (decide (value w curr < value w prev))) ∧
      int_check .increased_by w v v' curr prev =
        some (decide (if value_size w < 8 then value w curr - value w prev = v
          else (value w curr - value w prev) % 2 ^ 64 = v % 2 ^ 64)) ∧
      int_check .decreased_by w v v' curr prev =
        some (decide (if value_size w < 8 then value w prev - value w curr = v
          else (value w prev - value w curr) % 2 ^ 64 = v % 2 ^ 64)) := by
  have hsc := toInt_widened hw hcurr
  have hsp := toInt_widened hw hprev
  have hc := value_mem_range hcurr
  have hp := value_mem_range hprev
  refine ⟨fun hside hside' => ?_, fun hside => ⟨?_, ?_⟩, fun hside => ⟨?_, ?_⟩, ?_, ?_⟩
  · rw [between_check hw hv hv' hcurr]
    exact congrArg some (decide_eq_decide.mpr (and_congr (wrapped_le fun hu => (hside hu).symm) (wrapped_le hside')))
  · obtain ⟨s, s', hcheck, hs, -⟩ := int_check_widened hw hv hv' .bigger_than curr prev
    rw [hcheck, int_compare, slt_eq hs hsc fun hu => (hside hu).symm]
  · obtain ⟨s, s', hcheck, hs, -⟩ := int_check_widened hw hv hv' .smaller_than curr prev
    rw [hcheck, int_compare, slt_eq hsc hs hside]
  · obtain ⟨s, s', hcheck, -, -⟩ := int_check_widened hw hv hv' .increased curr prev
    rw [hcheck, int_compare, slt_eq hsp hsc fun hu => (hside hu).symm]
  · obtain ⟨s, s', hcheck, -, -⟩ := int_check_widened hw hv hv' .decreased curr prev
    rw [hcheck, int_compare, slt_eq hsc hsp hside]
  · obtain ⟨s, s', hcheck, hs, -⟩ := int_check_widened hw hv hv' .increased_by curr prev
    rw [hcheck, int_compare, beq_eq_decide]
    exact congrArg some (decide_eq_decide.mpr ((sub_eq_iff hsc hsp hs).trans (by_iff hc hp hv).symm))
  · obtain ⟨s, s', hcheck, hs, -⟩ := int_check_widened hw hv hv' .decreased_by curr prev
    rw [hcheck, int_compare, beq_eq_decide]
    exact congrArg some (decide_eq_decide.mpr ((sub_eq_iff hsp hsc hs).trans (by_iff hp hc hv).symm))

theorem int_check_order_bytes :
    int_check .between .i8 (-1) 1 0xFF 0 = some (decide ((-1 : Int) ≤ value .i8 0xFF ∧ value .i8 0xFF ≤ 1)) := by
  refine (int_check_order (w := .i8) rfl (by decide) (by decide) (by decide : Fits .i8 0xFF) (by decide : Fits .i8 0)).1 ?_ ?_
  · exact fun hu => absurd hu (by decide)
  · exact fun hu => absurd hu (by decide)

/-- A byte that goes from 255 to 0 is not increased by 1, and of the unsigned 64-bit width 2^63 is not bigger than 0. -/
theorem int_check_wraps :
    (¬ ∀ (w : value_width_t) (v : Int) (curr prev : BitVec 64), width_is_float w = false → lowest w ≤ v ∧ v ≤ highest w →
        Fits w curr → Fits w prev → int_check .increased_by w v v curr prev =
          some (decide ((value w curr - value w prev) % 2 ^ (8 * value_size w) = v % 2 ^ (8 * value_size w)))) ∧
      ¬ ∀ (w : value_width_t) (v : Int) (curr prev : BitVec 64), width_is_float w = false → lowest w ≤ v ∧ v ≤ highest w →
        Fits w curr → Fits w prev → int_check .bigger_than w v v curr prev = some (decide (v < value w curr)) := by
  constructor
  · intro hall
    exact absurd (hall .u8 1 0 255 rfl (by decide) (by decide) (by decide)) (by decide)
  · intro hall
    exact absurd (hall .u64 0 (BitVec.ofNat 64 (2 ^ 63)) 0 rfl (by decide) (by decide) (by decide)) (by decide)

end slop.core.memory.integral
