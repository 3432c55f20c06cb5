import Mathlib.Data.List.Nodup
import Mathlib.Data.List.Perm.Basic
import Mathlib.Data.List.Basic
import Mathlib.Data.List.Sort
import Mathlib.Order.Defs.LinearOrder

namespace Partition

/-- Adding an element to a list adds it to the part its key names and to no
other part. -/
theorem flatMap_filter_cons {α : Type} (key : α → Nat) (a : α) (l : List α) (parts : List Nat)
    (hnodup : parts.Nodup) (hkey : key a ∈ parts) :
    (parts.flatMap fun part => (a :: l).filter fun x => key x = part).Perm
      (a :: parts.flatMap fun part => l.filter fun x => key x = part) := by
  induction parts with
  | nil => simp at hkey
  | cons part parts ih =>
    obtain ⟨hpart, hrest⟩ := List.nodup_cons.mp hnodup
    simp only [List.flatMap_cons]
    by_cases heq : key a = part
    · have hother : (parts.flatMap fun part => (a :: l).filter fun x => key x = part) =
          parts.flatMap fun part => l.filter fun x => key x = part := by
        apply List.flatMap_congr
        intro other hmem
        have hne : key a ≠ other := by
          rintro rfl
          exact hpart (heq ▸ hmem)
        simp [hne]
      simp [heq, hother]
    · have hmem : key a ∈ parts := by
        rcases List.mem_cons.mp hkey with h | h
        · exact absurd h heq
        · exact h
      have htail := (ih hrest hmem).append_left (l.filter fun x => key x = part)
      have hhead : ((a :: l).filter fun x => key x = part) = l.filter fun x => key x = part := by
        simp [heq]
      rw [hhead]
      exact htail.trans List.perm_middle

/-- Work split by a key is the whole work, in another order, as long as every
key has a part. -/
theorem flatMap_filter_perm {α : Type} (key : α → Nat) (l : List α) (parts : List Nat)
    (hnodup : parts.Nodup) (hkeys : ∀ a ∈ l, key a ∈ parts) :
    (parts.flatMap fun part => l.filter fun x => key x = part).Perm l := by
  induction l with
  | nil => simp
  | cons a l ih =>
    have hfirst := flatMap_filter_cons key a l parts hnodup (hkeys a (by simp))
    exact hfirst.trans ((ih fun x hx => hkeys x (List.mem_cons_of_mem a hx)).cons a)

end Partition

namespace Swap

section

variable {α : Type} [DecidableEq α] {a b : α} {l : List α} (p : α → Bool)

/-- Put one element in the place of another, wherever that is. -/
def swap (l : List α) (a b : α) : List α := b :: l.erase a

theorem countP_erase (ha : a ∈ l) : (l.erase a).countP p + (p a).toNat = l.countP p := by
  rw [(List.perm_cons_erase ha).countP_eq p, List.countP_cons]
  cases p a <;> rfl

/-- Elements are counted as before, but for the two. -/
theorem countP_swap (ha : a ∈ l) : (swap l a b).countP p + (p a).toNat = l.countP p + (p b).toNat := by
  have herase := countP_erase p ha
  rw [swap, List.countP_cons]
  cases hb : p b
  · simpa using herase
  · simp only [if_true, Bool.toNat_true]
    omega

theorem forall_mem_swap {P : α → Prop} (hl : ∀ x ∈ l, P x) (hb : P b) : ∀ x ∈ swap l a b, P x := by
  intro x hx
  obtain rfl | hold := List.mem_cons.mp hx
  · exact hb
  · exact hl x (List.mem_of_mem_erase hold)

end

end Swap

namespace List

/-- Drop every element equal to the one before it, as `std::unique` does. -/
def unique {α : Type} [DecidableEq α] : List α → List α
  | [] => []
  | [a] => [a]
  | a :: b :: rest => if a = b then unique (b :: rest) else a :: unique (b :: rest)

variable {α : Type}

theorem mem_unique [DecidableEq α] {x : α} (l : List α) : x ∈ l.unique ↔ x ∈ l := by
  fun_induction unique l with
  | case1 => rfl
  | case2 => rfl
  | case3 a rest ih => simp [ih]
  | case4 a b rest _ ih => simp [ih]

/-- On a sorted list nothing is left twice. -/
theorem pairwise_unique [DecidableEq α] {le lt : α → α → Prop} (hlt : ∀ {a b}, le a b → a ≠ b → lt a b)
    (htrans : ∀ {a b c}, lt a b → le b c → lt a c) {l : List α} (hsorted : l.Pairwise le) : l.unique.Pairwise lt := by
  fun_induction unique l with
  | case1 => exact .nil
  | case2 a => simp
  | case3 a rest ih => exact ih hsorted.of_cons
  | case4 a b rest hne ih =>
    refine List.pairwise_cons.mpr ⟨?_, ih hsorted.of_cons⟩
    intro x hx
    rw [mem_unique] at hx
    have hab : lt a b := hlt (List.rel_of_pairwise_cons hsorted (by simp)) hne
    rcases List.mem_cons.mp hx with rfl | hrest
    · exact hab
    · exact htrans hab (List.rel_of_pairwise_cons hsorted.of_cons hrest)

theorem pairwise_lt_unique [LinearOrder α] {l : List α} (hsorted : l.Pairwise (· ≤ ·)) :
    l.unique.Pairwise (· < ·) := pairwise_unique lt_of_le_of_ne lt_of_lt_of_le hsorted

/-- The sum of a weight over a list. -/
def total {α : Type} (f : α → Nat) : List α → Nat
  | [] => 0
  | a :: rest => f a + total f rest

theorem total_le {f : α → Nat} {l : List α} {bound : Nat} (hle : ∀ a ∈ l, f a ≤ bound) :
    total f l ≤ l.length * bound := by
  induction l with
  | nil => exact Nat.zero_le _
  | cons a rest ih =>
    have hhead := hle a mem_cons_self
    have hrest := ih fun b hb => hle b (mem_cons_of_mem _ hb)
    rw [total, length_cons, Nat.succ_mul]
    omega

theorem total_mono {f g : α → Nat} {l : List α} (hle : ∀ a ∈ l, f a ≤ g a) : total f l ≤ total g l := by
  induction l with
  | nil => exact Nat.le_refl _
  | cons a rest ih => exact Nat.add_le_add (hle a mem_cons_self) (ih fun b hb => hle b (mem_cons_of_mem _ hb))

/-- Where one element loses weight and none gains any, the sum loses as much. -/
theorem total_add_le {f g : α → Nat} {l : List α} {w : Nat} (hle : ∀ a ∈ l, f a ≤ g a)
    (hless : ∃ a ∈ l, f a + w ≤ g a) : total f l + w ≤ total g l := by
  induction l with
  | nil =>
    obtain ⟨a, ha, -⟩ := hless
    exact absurd ha not_mem_nil
  | cons a rest ih =>
    have hhead := hle a mem_cons_self
    have hrest : ∀ b ∈ rest, f b ≤ g b := fun b hb => hle b (mem_cons_of_mem _ hb)
    rw [total, total]
    obtain ⟨b, hb, hb'⟩ := hless
    obtain heq | hb := mem_cons.mp hb
    · have htail := total_mono hrest
      rw [heq] at hb'
      omega
    · have htail := ih hrest ⟨b, hb, hb'⟩
      omega

theorem total_lt {f g : α → Nat} {l : List α} (hle : ∀ a ∈ l, f a ≤ g a) (hlt : ∃ a ∈ l, f a < g a) :
    total f l < total g l := by
  have hless : ∃ a ∈ l, f a + 1 ≤ g a := hlt
  exact total_add_le hle hless

theorem Nodup.length_eq_one_iff {l : List α} (hnodup : l.Nodup) : l.length = 1 ↔ ∃! a, a ∈ l := by
  rw [List.length_eq_one_iff]
  constructor
  · rintro ⟨a, rfl⟩
    exact ⟨a, List.mem_cons_self, fun _ hb => List.mem_singleton.mp hb⟩
  · rintro ⟨a, ha, hall⟩
    refine ⟨a, List.perm_singleton.mp ((List.perm_ext_iff_of_nodup hnodup (List.nodup_singleton a)).mpr fun b => ?_)⟩
    rw [List.mem_singleton]
    exact ⟨hall b, fun h => h ▸ ha⟩

end List

namespace Overwrite

section

variable {ι α β : Type} (covers : ι → α → Prop) [∀ i, DecidablePred (covers i)] (val : ι → β)

/-- Give every point that an area covers the area's value. -/
def write (f : α → β) (i : ι) : α → β := fun a => if covers i a then val i else f a

/-- The last of the areas that covers a point. -/
def last (l : List ι) (a : α) : Option ι := l.reverse.find? fun i => covers i a

/-- After a series of writes a point has the value of the last area that covers it. -/
theorem foldl_write (l : List ι) (f : α → β) (a : α) :
    l.foldl (write covers val) f a = ((last covers l a).map val).getD (f a) := by
  induction l generalizing f with
  | nil => rfl
  | cons i l ih =>
    rw [List.foldl_cons, ih, last, last, List.reverse_cons, List.find?_append]
    cases hlast : l.reverse.find? fun i => covers i a with
    | some j => rfl
    | none =>
      by_cases hi : covers i a
      · simp [write, hi]
      · simp [write, hi]

theorem last_eq_some {l : List ι} {a : α} {i : ι} (h : last covers l a = some i) : i ∈ l ∧ covers i a := by
  refine ⟨List.mem_reverse.mp (List.mem_of_find?_eq_some h), ?_⟩
  have htest := List.find?_some h
  exact of_decide_eq_true htest

theorem last_eq_none {l : List ι} {a : α} (h : last covers l a = none) : ∀ i ∈ l, ¬ covers i a := by
  intro i hi hcovers
  have hnone := List.find?_eq_none.mp h i (List.mem_reverse.mpr hi)
  exact hnone (decide_eq_true hcovers)

end

end Overwrite
