import Mathlib.Data.List.Sort
import ReverseSlop.Library.Keyed

namespace Extents

variable {α κ : Type} [LinearOrder κ] (key : α → κ)

/-- `a`, and the first of every later run of elements with one key. -/
def unique_from (a : α) : List α → List α
  | [] => [a]
  | b :: l => if key a = key b then unique_from a l else a :: unique_from b l

/-- The first of every run of elements with one key. -/
def unique_by : List α → List α
  | [] => []
  | a :: l => unique_from key a l

/-- The last of the elements from the front with keys that are not above `k`. -/
def last_le (k : κ) (l : List α) : Option α := (l.takeWhile fun a => key a ≤ k).getLast?

section

variable {key} {a x : α} {k : κ} {l : List α}

theorem mem_of_mem_unique_from (hx : x ∈ unique_from key a l) : x ∈ a :: l := by
  induction l generalizing a with
  | nil => exact hx
  | cons b l ih =>
    rw [unique_from] at hx
    split at hx
    · rcases List.mem_cons.mp (ih hx) with rfl | hl <;> simp [*]
    · rcases List.mem_cons.mp hx with rfl | hl
      · exact List.mem_cons_self
      · exact List.mem_cons_of_mem _ (ih hl)

theorem mem_of_mem_unique_by (hx : x ∈ unique_by key l) : x ∈ l := by
  cases l with
  | nil => exact hx
  | cons a l => exact mem_of_mem_unique_from hx

theorem mem_unique_from (key : α → κ) (a : α) (l : List α) : a ∈ unique_from key a l := by
  induction l with
  | nil => exact List.mem_cons_self
  | cons b l ih =>
    rw [unique_from]
    split
    · exact ih
    · exact List.mem_cons_self

theorem pairwise_unique_from (hsorted : (a :: l).Pairwise fun x y => key x ≤ key y) :
    (unique_from key a l).Pairwise fun x y => key x < key y := by
  induction l generalizing a with
  | nil => exact List.pairwise_singleton _ _
  | cons b l ih =>
    rw [List.pairwise_cons, List.pairwise_cons] at hsorted
    obtain ⟨ha, hb, hl⟩ := hsorted
    rw [unique_from]
    split
    · exact ih (List.pairwise_cons.mpr ⟨fun x hx => ha x (List.mem_cons_of_mem _ hx), hl⟩)
    case isFalse hne =>
      refine List.pairwise_cons.mpr ⟨fun x hx => ?_, ih (List.pairwise_cons.mpr ⟨hb, hl⟩)⟩
      have hlt : key a < key b := lt_of_le_of_ne (ha b List.mem_cons_self) hne
      rcases List.mem_cons.mp (mem_of_mem_unique_from hx) with rfl | hx
      · exact hlt
      · exact hlt.trans_le (hb x hx)

theorem pairwise_unique_by (hsorted : l.Pairwise fun x y => key x ≤ key y) :
    (unique_by key l).Pairwise fun x y => key x < key y := by
  cases l with
  | nil => exact List.Pairwise.nil
  | cons a l => exact pairwise_unique_from hsorted

/-- An element behind smaller ones is the first of its run. -/
theorem mem_unique_from_of_lt {pre post : List α} (ha : key a < key x) (hpre : ∀ y ∈ pre, key y < key x) :
    x ∈ unique_from key a (pre ++ x :: post) := by
  induction pre generalizing a with
  | nil =>
    rw [List.nil_append, unique_from, if_neg ha.ne]
    exact List.mem_cons_of_mem _ (mem_unique_from key x post)
  | cons b pre ih =>
    rw [List.cons_append, unique_from]
    split
    · exact ih ha fun y hy => hpre y (List.mem_cons_of_mem _ hy)
    · exact List.mem_cons_of_mem _ (ih (hpre b List.mem_cons_self) fun y hy => hpre y (List.mem_cons_of_mem _ hy))

theorem mem_unique_by_of_lt {pre post : List α} (hpre : ∀ y ∈ pre, key y < key x) :
    x ∈ unique_by key (pre ++ x :: post) := by
  cases pre with
  | nil => exact mem_unique_from key x post
  | cons b pre =>
    exact mem_unique_from_of_lt (hpre b List.mem_cons_self) fun y hy => hpre y (List.mem_cons_of_mem _ hy)

/-- Of the elements with one key the first is kept. -/
theorem mem_unique_by_of_find? (hsorted : l.Pairwise fun x y => key x ≤ key y)
    (hfind : l.find? (fun a => key a = k) = some x) : x ∈ unique_by key l := by
  obtain ⟨hk, pre, post, rfl, hpre⟩ := List.find?_eq_some_iff_append.mp hfind
  refine mem_unique_by_of_lt fun y hy => lt_of_le_of_ne ?_ fun hsame => ?_
  · exact (List.pairwise_append.mp hsorted).2.2 y hy x List.mem_cons_self
  · have hother := hpre y hy
    simp_all

theorem mem_takeWhile_le (hl : l.Pairwise fun x y => key x < key y) :
    x ∈ l.takeWhile (fun a => key a ≤ k) ↔ x ∈ l ∧ key x ≤ k := by
  induction l with
  | nil => simp
  | cons b l ih =>
    obtain ⟨hb, hl⟩ := List.pairwise_cons.mp hl
    rw [List.takeWhile_cons]
    split
    case isTrue hle =>
      rw [List.mem_cons, ih hl, List.mem_cons]
      constructor
      · rintro (rfl | ⟨hx, hk⟩)
        · exact ⟨Or.inl rfl, of_decide_eq_true hle⟩
        · exact ⟨Or.inr hx, hk⟩
      · rintro ⟨rfl | hx, hk⟩
        · exact Or.inl rfl
        · exact Or.inr ⟨hx, hk⟩
    case isFalse hgt =>
      have hgt : k < key b := by simpa using hgt
      refine iff_of_false List.not_mem_nil ?_
      rintro ⟨hx, hk⟩
      rcases List.mem_cons.mp hx with rfl | hx
      · exact absurd hk hgt.not_ge
      · exact absurd hk ((hgt.trans (hb x hx)).not_ge)

/-- Among ascending keys, the element found has the greatest of the keys that are not above `k`. -/
theorem last_le_eq_some (hl : l.Pairwise fun x y => key x < key y) :
    last_le key k l = some x ↔ x ∈ l ∧ key x ≤ k ∧ ∀ y ∈ l, key y ≤ k → key y ≤ key x := by
  have hbelow : (l.takeWhile fun a => key a ≤ k).Pairwise fun x y => key x < key y :=
    hl.sublist (List.takeWhile_sublist _)
  have hlast : ∀ z, last_le key k l = some z → ∀ y ∈ l, key y ≤ k → key y ≤ key z := by
    intro z hz y hy hk
    obtain ⟨init, hinit⟩ := List.getLast?_eq_some_iff.mp hz
    have hmem := (mem_takeWhile_le hl).mpr ⟨hy, hk⟩
    rw [hinit] at hmem hbelow
    rcases List.mem_append.mp hmem with hy | hy
    · exact ((List.pairwise_append.mp hbelow).2.2 y hy z List.mem_cons_self).le
    · rw [List.mem_singleton.mp hy]
  constructor
  · intro hx
    obtain ⟨hmem, hk⟩ := (mem_takeWhile_le hl).mp (List.mem_of_getLast? hx)
    exact ⟨hmem, hk, hlast x hx⟩
  · rintro ⟨hmem, hk, hmax⟩
    have hne : (l.takeWhile fun a => key a ≤ k) ≠ [] := List.ne_nil_of_mem ((mem_takeWhile_le hl).mpr ⟨hmem, hk⟩)
    obtain ⟨z, hz⟩ := Option.isSome_iff_exists.mp (List.getLast?_isSome.mpr hne)
    have hz' : last_le key k l = some z := hz
    obtain ⟨hzmem, hzk⟩ := (mem_takeWhile_le hl).mp (List.mem_of_getLast? hz)
    have hkey : key x = key z := le_antisymm (hlast z hz' x hmem hk) (hmax z hzmem hzk)
    rw [hz', Keyed.Distinct.eq_of_key (hl.imp fun hlt => hlt.ne) hmem hzmem hkey]

/-- Elements with distinct keys are ascending when they are sorted by the keys. -/
theorem pairwise_mergeSort_of_nodup (key : α → κ) {le : α → α → Bool} (hle : ∀ a b, le a b ↔ key a ≤ key b) (hnodup : (l.map key).Nodup) :
    (l.mergeSort le).Pairwise fun x y => key x < key y := by
  have hsorted : (l.mergeSort le).Pairwise fun x y => le x y := by
    apply List.pairwise_mergeSort
    · intro x y z hxy hyz
      rw [hle] at hxy hyz ⊢
      exact hxy.trans hyz
    · intro x y
      rw [Bool.or_eq_true, hle, hle]
      exact le_total _ _
  have hdistinct : ((l.mergeSort le).map key).Nodup := ((List.mergeSort_perm l le).map key).nodup_iff.mpr hnodup
  exact (hsorted.and (List.pairwise_map.mp hdistinct)).imp fun ⟨hxy, hne⟩ => lt_of_le_of_ne ((hle _ _).mp hxy) hne

end

end Extents
