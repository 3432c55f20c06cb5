import Mathlib.Tactic.NormNum
import Mathlib.Order.Bounds.Basic
import Mathlib.Data.Nat.Basic

namespace Word

/-- Subtraction of 64-bit unsigned integers. -/
def sub64 (a b : Nat) : Nat := (a + (2 ^ 64 - b % 2 ^ 64)) % 2 ^ 64

theorem sub64_eq_sub {a b : Nat} (hle : b ≤ a) (hword : a < 2 ^ 64) : sub64 a b = a - b := by
  have hb : b % 2 ^ 64 = b := Nat.mod_eq_of_lt (by omega)
  simp only [sub64, hb]
  omega

end Word

/-! Rounding up to an alignment, and members that are put one behind the other. -/
namespace Alignment

def round_up (n align : Nat) : Nat := (n + align - 1) / align * align

/-- What a member needs. -/
structure Member where
  size : Nat
  align : Nat

/-- Offsets are as small as they can be: each is a multiple of its member's alignment and not below the
end of the member before. The last member ends at `stop`. -/
def Placed : Nat → List Member → List Nat → Nat → Prop
  | start, [], [], stop => stop = start
  | start, m :: members, off :: offsets, stop =>
    IsLeast {x | start ≤ x ∧ m.align ∣ x} off ∧ Placed (off + m.size) members offsets stop
  | _, _, _, _ => False

/-- The end of the last member. -/
def last_end (start : Nat) : List Member → Nat
  | [] => start
  | m :: members => last_end (round_up start m.align + m.size) members

def max_align (members : List Member) : Nat := members.foldr (fun m most => max m.align most) 1

section

variable {n align start : Nat} {members : List Member} {offsets : List Nat}

theorem le_round_up (halign : 0 < align) : n ≤ round_up n align := by
  have hdiv := Nat.div_add_mod (n + align - 1) align
  have hmod := Nat.mod_lt (n + align - 1) halign
  rw [round_up, Nat.mul_comm]
  omega

theorem dvd_round_up : align ∣ round_up n align := Nat.dvd_mul_left _ _

/-- Rounding up gives the smallest multiple. -/
theorem isLeast_round_up (halign : 0 < align) : IsLeast {x | n ≤ x ∧ align ∣ x} (round_up n align) := by
  refine ⟨⟨le_round_up halign, dvd_round_up⟩, ?_⟩
  rintro x ⟨hn, k, rfl⟩
  rw [round_up, Nat.mul_comm align k]
  refine Nat.mul_le_mul_right _ ?_
  have hlt : n + align - 1 < (k + 1) * align := by
    rw [Nat.add_mul, Nat.one_mul, Nat.mul_comm k]
    omega
  exact Nat.lt_succ_iff.mp (Nat.div_lt_of_lt_mul (by rwa [Nat.mul_comm] at hlt))

theorem isLeast_iff (halign : 0 < align) {x : Nat} :
    IsLeast {x | n ≤ x ∧ align ∣ x} x ↔ x = round_up n align := by
  refine ⟨fun h => h.unique (isLeast_round_up halign), ?_⟩
  rintro rfl
  exact isLeast_round_up halign

theorem max_align_pos : 0 < max_align members := by
  induction members with
  | nil => exact Nat.one_pos
  | cons m members ih => exact Nat.lt_of_lt_of_le ih (Nat.le_max_right _ _)

theorem le_last_end (start : Nat) (hmembers : ∀ m ∈ members, 0 < m.align) : start ≤ last_end start members := by
  induction members generalizing start with
  | nil => exact Nat.le_refl _
  | cons m members ih =>
    obtain ⟨hm, hmembers⟩ := List.forall_mem_cons.mp hmembers
    have hround : start ≤ round_up start m.align := le_round_up hm
    have hrest := ih (round_up start m.align + m.size) hmembers
    rw [last_end]
    omega

theorem Placed.le {stop : Nat} (h : Placed start members offsets stop) : start ≤ stop := by
  induction members generalizing start offsets with
  | nil =>
    cases offsets with
    | nil => exact Nat.le_of_eq h.symm
    | cons off offsets => cases h
  | cons m members ih =>
    cases offsets with
    | nil => cases h
    | cons off offsets =>
      obtain ⟨⟨⟨hstart, -⟩, -⟩, hrest⟩ := h
      exact Nat.le_trans (Nat.le_trans hstart (Nat.le_add_right _ _)) (ih hrest)

end

end Alignment
