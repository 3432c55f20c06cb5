import Mathlib.Data.List.Pairwise
import Mathlib.Data.List.TakeDrop
import Mathlib.Data.List.Basic

namespace Search

section

variable {α : Type} (above : α → Bool) (l : List α)

/-- Halve the `count` positions from `first` on until none is left. -/
def upper_bound_from : Nat → Nat → Nat → Nat
  | 0, first, _ => first
  | fuel + 1, first, count =>
    if count = 0 then first
    else if (l[first + count / 2]?).any above then upper_bound_from fuel first (count / 2)
    else upper_bound_from fuel (first + count / 2 + 1) (count - (count / 2 + 1))

/-- The position of the first element above a bound, in a list with all of these at its end. -/
def upper_bound : Nat := upper_bound_from above l l.length 0 l.length

/-- The elements above stand behind the others. -/
def Ascending : Prop := l.Pairwise fun a b => above a = true → above b = true

/-- Nothing in front of `first` is above, and everything from `last` on is. -/
structure Between (first last : Nat) : Prop where
  le : first ≤ last
  end_le : last ≤ l.length
  below : ∀ i a, l[i]? = some a → i < first → above a = false
  above : ∀ i a, l[i]? = some a → last ≤ i → above a = true

variable {above l}

theorem Ascending.above_of_le (hl : Ascending above l) {i j : Nat} {a b : α} (hij : i ≤ j) (ha : l[i]? = some a)
    (hb : l[j]? = some b) (habove : above a = true) : above b = true := by
  obtain ⟨hi, rfl⟩ := List.getElem?_eq_some_iff.mp ha
  obtain ⟨hj, rfl⟩ := List.getElem?_eq_some_iff.mp hb
  rcases Nat.lt_or_eq_of_le hij with hlt | rfl
  · exact List.pairwise_iff_getElem.mp hl i j hi hj hlt habove
  · exact habove

theorem Between.init (above : α → Bool) (l : List α) : Between above l 0 l.length := by
  refine ⟨Nat.zero_le _, Nat.le_refl _, fun i a _ hlt => absurd hlt (Nat.not_lt_zero i), fun i a ha hle => ?_⟩
  rw [List.getElem?_eq_none hle] at ha
  cases ha

/-- The search ends on the boundary between the two parts. -/
theorem upper_bound_from_spec (hl : Ascending above l) {fuel first count : Nat}
    (hbetween : Between above l first (first + count)) (hfuel : count ≤ fuel) :
    Between above l (upper_bound_from above l fuel first count) (upper_bound_from above l fuel first count) := by
  induction fuel generalizing first count with
  | zero =>
    obtain rfl : count = 0 := Nat.le_zero.mp hfuel
    exact hbetween
  | succ fuel ih =>
    rw [upper_bound_from]
    by_cases hcount : count = 0
    · subst hcount
      rw [if_pos rfl]
      exact hbetween
    · rw [if_neg hcount]
      have hend := hbetween.end_le
      have hmid : first + count / 2 < l.length := by omega
      have hget : l[first + count / 2]? = some l[first + count / 2] := List.getElem?_eq_getElem hmid
      rw [hget, Option.any_some]
      by_cases habove : above l[first + count / 2] = true
      · rw [if_pos habove]
        refine ih ⟨by omega, by omega, hbetween.below, fun i a ha hle => ?_⟩ (by omega)
        exact hl.above_of_le hle hget ha habove
      · rw [if_neg habove]
        refine ih ⟨by omega, by omega, fun i a ha hlt => ?_, fun i a ha hle => ?_⟩ (by omega)
        · by_contra hnot
          exact habove (hl.above_of_le (by omega) ha hget (Bool.not_eq_false _ ▸ hnot))
        · exact hbetween.above i a ha (by omega)

theorem upper_bound_spec (hl : Ascending above l) : Between above l (upper_bound above l) (upper_bound above l) :=
  upper_bound_from_spec hl (by simpa using Between.init above l) (Nat.le_refl _)

/-- The elements in front of the bound are those that are not above. -/
theorem mem_take_upper_bound (hl : Ascending above l) {a : α} :
    a ∈ l.take (upper_bound above l) ↔ a ∈ l ∧ above a = false := by
  have hspec := upper_bound_spec hl
  constructor
  · intro ha
    obtain ⟨i, hi⟩ := List.getElem?_of_mem ha
    have hlt : i < upper_bound above l := by
      by_contra hge
      rw [List.getElem?_take_eq_none (Nat.le_of_not_lt hge)] at hi
      cases hi
    rw [List.getElem?_take_of_lt hlt] at hi
    exact ⟨List.mem_of_getElem? hi, hspec.below i a hi hlt⟩
  · rintro ⟨ha, hbelow⟩
    obtain ⟨i, hi⟩ := List.getElem?_of_mem ha
    have hlt : i < upper_bound above l := by
      by_contra hge
      have habove := hspec.above i a hi (Nat.le_of_not_lt hge)
      rw [hbelow] at habove
      cases habove
    refine List.mem_of_getElem? (i := i) ?_
    rw [List.getElem?_take_of_lt hlt, hi]

end

end Search

/-! Scans that go forward over positions and find something at some of them. -/
namespace Steps

variable {β : Type} (step : Nat → Option β × Nat) (len : Nat)

def Forward : Prop := ∀ i, i < (step i).2

/-- What is found from a position on. -/
def scan (hforward : Forward step) (i : Nat) : List β :=
  if _h : i < len then (step i).1.toList ++ scan hforward (step i).2 else []
termination_by len - i
decreasing_by
  have hlt := hforward i
  omega

/-- The positions to which the scan comes from `i`. -/
inductive Reached (i : Nat) : Nat → Prop where
  | refl : Reached i i
  | step {q : Nat} (h : Reached i q) (hq : q < len) : Reached i (step q).2

section

variable {step len} {i p q : Nat} {b : β}

theorem Reached.head (hi : i < len) (h : Reached step len (step i).2 q) : Reached step len i q := by
  induction h with
  | refl => exact .step .refl hi
  | step _ hq ih => exact .step ih hq

theorem Reached.cases_head (h : Reached step len i q) : q = i ∨ i < len ∧ Reached step len (step i).2 q := by
  induction h with
  | refl => exact .inl rfl
  | step _ hq ih =>
    rcases ih with rfl | ⟨hi, hnext⟩
    · exact .inr ⟨hq, .refl⟩
    · exact .inr ⟨hi, .step hnext hq⟩

/-- What is found is found by a step at a reached position. -/
theorem mem_scan (hforward : Forward step) :
    b ∈ scan step len hforward i ↔ ∃ q, Reached step len i q ∧ q < len ∧ (step q).1 = some b := by
  induction i using scan.induct step len hforward with
  | case1 i hi ih =>
    rw [scan, dif_pos hi, List.mem_append, Option.mem_toList, ih]
    constructor
    · rintro (hfound | ⟨q, hreached, hq, hfound⟩)
      · exact ⟨i, .refl, hi, hfound⟩
      · exact ⟨q, hreached.head hi, hq, hfound⟩
    · rintro ⟨q, hreached, hq, hfound⟩
      rcases hreached.cases_head with rfl | ⟨-, hnext⟩
      · exact .inl hfound
      · exact .inr ⟨q, hnext, hq, hfound⟩
  | case2 i hi =>
    rw [scan, dif_neg hi]
    refine iff_of_false List.not_mem_nil ?_
    rintro ⟨q, hreached, hq, -⟩
    rcases hreached.cases_head with rfl | ⟨hlt, -⟩
    · exact hi hq
    · exact hi hlt

/-- A position is reached, or a step from before it goes behind it. -/
theorem reached_or_passed (hforward : Forward step) (hp : p < len) :
    Reached step len 0 p ∨ ∃ q, Reached step len 0 q ∧ q < p ∧ p < (step q).2 := by
  induction p with
  | zero => exact .inl .refl
  | succ p ih =>
    have hpass : ∀ q, Reached step len 0 q → q ≤ p → p < (step q).2 →
        Reached step len 0 (p + 1) ∨ ∃ q, Reached step len 0 q ∧ q < p + 1 ∧ p + 1 < (step q).2 := by
      intro q hreached hle hlt
      rcases Nat.eq_or_lt_of_le (Nat.succ_le_of_lt hlt) with hnext | hnext
      · have hstep := hreached.step (show q < len by omega)
        rw [← hnext] at hstep
        exact .inl hstep
      · exact .inr ⟨q, hreached, by omega, hnext⟩
    rcases ih (by omega) with hreached | ⟨q, hreached, hlt, hpassed⟩
    · exact hpass p hreached (Nat.le_refl p) (hforward p)
    · exact hpass q hreached (Nat.le_of_lt hlt) hpassed

theorem le_of_reached (hforward : Forward step) (h : Reached step len i q) : i ≤ q := by
  induction h with
  | refl => exact Nat.le_refl i
  | step _ _ ih => exact Nat.le_of_lt (Nat.lt_of_le_of_lt ih (hforward _))

/-- A relation between what one step finds and what any step behind it finds holds all over the scan. -/
theorem pairwise_scan (hforward : Forward step) {R : β → β → Prop}
    (hR : ∀ q q' b b', (step q).1 = some b → (step q).2 ≤ q' → (step q').1 = some b' → R b b') (i : Nat) :
    (scan step len hforward i).Pairwise R := by
  induction i using scan.induct step len hforward with
  | case1 i hi ih =>
    rw [scan, dif_pos hi]
    cases hfound : (step i).1 with
    | none => exact ih
    | some b =>
      refine List.pairwise_cons.mpr ⟨fun b' hb' => ?_, ih⟩
      obtain ⟨q, hreached, -, hfound'⟩ := (mem_scan hforward).mp hb'
      exact hR i q b b' hfound (le_of_reached hforward hreached) hfound'
  | case2 i hi =>
    rw [scan, dif_neg hi]
    exact .nil

end

end Steps
