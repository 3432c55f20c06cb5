import Mathlib.Algebra.Group.Nat.Defs
import Mathlib.Data.Nat.Basic
import Mathlib.Tactic.Ring

/-! The integers among the values of binary64, and the rounding of an integer to the nearest of them. -/
namespace Binary64

/-- A number with a significand of 53 bits. -/
def Representable (n : Nat) : Prop := ∃ m k, m < 2 ^ 53 ∧ n = m * 2 ^ k

/-- The exponent of the last bit that the significand of `n` has room for. -/
def ulp (n : Nat) : Nat := n.log2 - 52

/-- The nearest number with a significand of 53 bits. Of two the even one is taken. -/
def round_nat (n : Nat) : Nat :=
  let q := n / 2 ^ ulp n
  let r := n % 2 ^ ulp n
  if 2 * r < 2 ^ ulp n ∨ (2 * r = 2 ^ ulp n ∧ q % 2 = 0) then q * 2 ^ ulp n else (q + 1) * 2 ^ ulp n

def round (z : Int) : Int := if z < 0 then -(round_nat z.natAbs : Int) else round_nat z.natAbs

section

variable {m n k : Nat} {z z' : Int}

theorem ulp_mono (hle : m ≤ n) : ulp m ≤ ulp n := by
  by_cases hm : m = 0
  · subst hm
    simp [ulp]
  · have hlog : m.log2 ≤ n.log2 := (Nat.le_log2 (by omega)).mpr (le_trans (Nat.log2_self_le hm) hle)
    simp only [ulp]
    omega

theorem div_ulp_lt (n : Nat) : n / 2 ^ ulp n < 2 ^ 53 := by
  have hlt : n < 2 ^ (n.log2 + 1) := Nat.lt_log2_self
  refine Nat.div_lt_of_lt_mul (lt_of_lt_of_le hlt ?_)
  rw [← Nat.pow_add]
  exact Nat.pow_le_pow_right (by omega) (by simp only [ulp]; omega)

theorem representable_iff : Representable n ↔ 2 ^ ulp n ∣ n := by
  constructor
  · rintro ⟨m, k, hm, rfl⟩
    by_cases hzero : m = 0
    · simp [hzero]
    · have hpos : m * 2 ^ k ≠ 0 := Nat.mul_ne_zero hzero (Nat.pow_pos (by omega)).ne'
      have hlt : (m * 2 ^ k).log2 < 53 + k := by
        rw [Nat.log2_lt hpos, Nat.pow_add]
        exact Nat.mul_lt_mul_of_pos_right hm (Nat.pow_pos (by omega))
      exact Dvd.dvd.mul_left (Nat.pow_dvd_pow 2 (by simp only [ulp]; omega)) m
  · intro hdvd
    exact ⟨n / 2 ^ ulp n, ulp n, div_ulp_lt n, (Nat.div_mul_cancel hdvd).symm⟩

instance (n : Nat) : Decidable (Representable n) := decidable_of_iff _ representable_iff.symm

theorem representable_pow (k : Nat) : Representable (2 ^ k) := ⟨1, k, by omega, (Nat.one_mul _).symm⟩

/-- A significand may round up to the next power of two. -/
theorem representable_mul_pow (hle : m ≤ 2 ^ 53) (k : Nat) : Representable (m * 2 ^ k) := by
  rcases Nat.lt_or_eq_of_le hle with hlt | rfl
  · exact ⟨m, k, hlt, rfl⟩
  · rw [← Nat.pow_add]
    exact representable_pow _

theorem representable_round_nat (n : Nat) : Representable (round_nat n) := by
  have hlt := div_ulp_lt n
  simp only [round_nat]
  split
  · exact representable_mul_pow (by omega) _
  · exact representable_mul_pow (by omega) _

theorem le_div_mul (hdvd : k ∣ m) (hle : m ≤ n) : m ≤ n / k * k := by
  rw [← Nat.div_mul_cancel hdvd]
  exact Nat.mul_le_mul_right _ (Nat.div_le_div_right hle)

/-- No number with a significand of 53 bits is between the two neighbours. -/
theorem Representable.le_or_le (hm : Representable m) (n : Nat) :
    m ≤ n / 2 ^ ulp n * 2 ^ ulp n ∨ n / 2 ^ ulp n * 2 ^ ulp n + 2 ^ ulp n ≤ m := by
  rw [representable_iff] at hm
  rcases Nat.lt_or_ge n m with hlt | hle
  · right
    obtain ⟨c, hc⟩ := (Nat.pow_dvd_pow 2 (ulp_mono hlt.le)).trans hm
    have hquot : n / 2 ^ ulp n < c := (Nat.div_lt_iff_lt_mul (Nat.pow_pos (by omega))).mpr (by rwa [Nat.mul_comm, ← hc])
    rw [← Nat.succ_mul, hc, Nat.mul_comm _ c]
    exact Nat.mul_le_mul_right _ hquot
  · left
    rcases Nat.lt_or_eq_of_le (ulp_mono hle) with hulp | hulp
    · -- the power of two at the top of `n` is in between
      have hn : n ≠ 0 := by
        rintro rfl
        simp [ulp] at hulp
      have htop : m < 2 ^ n.log2 := by
        refine lt_of_lt_of_le (Nat.lt_log2_self (n := m)) (Nat.pow_le_pow_right (by omega) ?_)
        simp only [ulp] at hulp
        omega
      have hdvd : 2 ^ ulp n ∣ 2 ^ n.log2 := Nat.pow_dvd_pow 2 (by simp only [ulp]; omega)
      exact htop.le.trans (le_div_mul hdvd (Nat.log2_self_le hn))
    · exact le_div_mul (hulp ▸ hm) hle

/-- Nothing with a significand of 53 bits is nearer. -/
theorem round_nat_nearest (hm : Representable m) (n : Nat) :
    ((round_nat n : Int) - n).natAbs ≤ ((m : Int) - n).natAbs := by
  have hsides := hm.le_or_le n
  have hdiv := Nat.div_add_mod' n (2 ^ ulp n)
  simp only [round_nat, Nat.add_mul, Nat.one_mul]
  generalize n / 2 ^ ulp n * 2 ^ ulp n = low at *
  split <;> omega

theorem round_nat_eq_self_iff : round_nat n = n ↔ Representable n := by
  refine ⟨fun h => h ▸ representable_round_nat n, fun h => ?_⟩
  have hnearest := round_nat_nearest h n
  omega

theorem round_nat_mono (hle : m ≤ n) : round_nat m ≤ round_nat n := by
  rcases Nat.lt_or_eq_of_le hle with hlt | rfl
  · have hlow := round_nat_nearest (representable_round_nat n) m
    have hhigh := round_nat_nearest (representable_round_nat m) n
    omega
  · exact le_rfl

theorem round_eq_self_iff : round z = z ↔ Representable z.natAbs := by
  rw [← round_nat_eq_self_iff, round]
  split <;> omega

theorem round_mono (hle : z ≤ z') : round z ≤ round z' := by
  simp only [round]
  split <;> split
  · have hnat := round_nat_mono (show z'.natAbs ≤ z.natAbs by omega)
    omega
  · omega
  · omega
  · have hnat := round_nat_mono (show z.natAbs ≤ z'.natAbs by omega)
    omega

theorem round_neg_pow (k : Nat) : round (-2 ^ k) = -2 ^ k := by
  rw [round_eq_self_iff, Int.natAbs_neg, show ((2 : Int) ^ k).natAbs = 2 ^ k by simp [Int.natAbs_pow]]
  exact representable_pow k

end

end Binary64
