import Mathlib.Data.List.Sort
import Mathlib.Data.List.Pairwise

namespace SortedSet

variable {α : Type} [LinearOrder α]

/-- `insert` of an ordered set. -/
def insert (a : α) : List α → List α
  | [] => [a]
  | b :: s => if a < b then a :: b :: s else if a = b then b :: s else b :: insert a s

/-- The set of the elements of a list, in their order. -/
def collect (l : List α) : List α := l.foldl (fun s a => insert a s) []

section

variable {a b : α} {s l : List α}

theorem mem_insert : b ∈ insert a s ↔ b = a ∨ b ∈ s := by
  induction s with
  | nil => simp [insert]
  | cons c s ih =>
    rw [insert]
    split
    · rw [List.mem_cons]
    · split
      · rename_i hsame
        rw [hsame, List.mem_cons, ← or_assoc, or_self]
      · rw [List.mem_cons, ih, List.mem_cons, or_left_comm]

theorem pairwise_insert (hs : s.Pairwise (· < ·)) (a : α) : (insert a s).Pairwise (· < ·) := by
  induction s with
  | nil => exact List.pairwise_singleton _ _
  | cons b s ih =>
    obtain ⟨hb, hrest⟩ := List.pairwise_cons.mp hs
    rw [insert]
    split
    · rename_i hlt
      refine List.pairwise_cons.mpr ⟨fun c hc => ?_, hs⟩
      rcases List.mem_cons.mp hc with rfl | hc
      · exact hlt
      · exact hlt.trans (hb c hc)
    · rename_i hnot
      split
      · exact hs
      · rename_i hne
        refine List.pairwise_cons.mpr ⟨fun c hc => ?_, ih hrest⟩
        rcases mem_insert.mp hc with rfl | hc
        · exact lt_of_le_of_ne (not_lt.mp hnot) (Ne.symm hne)
        · exact hb c hc

theorem mem_foldl : b ∈ l.foldl (fun s a => insert a s) s ↔ b ∈ l ∨ b ∈ s := by
  induction l generalizing s with
  | nil => simp
  | cons a l ih => rw [List.foldl_cons, ih, mem_insert, List.mem_cons, ← or_assoc, or_comm (a := b ∈ l)]

theorem pairwise_foldl (hs : s.Pairwise (· < ·)) (l : List α) :
    (l.foldl (fun s a => insert a s) s).Pairwise (· < ·) := by
  induction l generalizing s with
  | nil => exact hs
  | cons a l ih => exact ih (pairwise_insert hs a)

theorem mem_collect : b ∈ collect l ↔ b ∈ l := by simp [collect, mem_foldl]

theorem pairwise_collect (l : List α) : (collect l).Pairwise (· < ·) := pairwise_foldl List.Pairwise.nil l

/-- The set of the elements is a list with the same elements exactly if that list ascends. -/
theorem collect_eq_iff (hmem : ∀ a, a ∈ s ↔ a ∈ l) : collect l = s ↔ s.Pairwise (· < ·) := by
  constructor
  · rintro rfl
    exact pairwise_collect l
  · exact fun hs => (pairwise_collect l).eq_of_mem_iff hs fun a => mem_collect.trans (hmem a).symm

/-- No list with the same elements is shorter. -/
theorem length_collect_le (hmem : ∀ a ∈ l, a ∈ s) : (collect l).length ≤ s.length :=
  (List.subperm_of_subset (pairwise_collect l).nodup fun a ha => hmem a (mem_collect.mp ha)).length_le

end

end SortedSet

/-! Maps as lists that are sorted by their keys, as `std::map` goes through them. -/
namespace SortedMap

section

variable {κ α : Type} [Ord κ]

/-- Give a key a value. -/
def set (k : κ) (v : α) : List (κ × α) → List (κ × α)
  | [] => [(k, v)]
  | e :: l =>
    match compare k e.1 with
    | .lt => (k, v) :: e :: l
    | .eq => (k, v) :: l
    | .gt => e :: set k v l

def find (k : κ) (l : List (κ × α)) : Option α := (l.find? fun e => compare k e.1 == .eq).map Prod.snd

/-- Give a key a value unless it has one. -/
def add (k : κ) (v : α) (l : List (κ × α)) : List (κ × α) := if (find k l).isSome then l else set k v l

def erase (k : κ) (l : List (κ × α)) : List (κ × α) := l.filter fun e => compare k e.1 != .eq

/-- The map with an entry for each element of a list; later ones replace earlier ones. -/
def collect {β : Type} (entry : β → κ × α) (l : List β) : List (κ × α) :=
  l.foldl (fun map e => set (entry e).1 (entry e).2 map) []

def Sorted (l : List (κ × α)) : Prop := l.Pairwise fun a b => compare a.1 b.1 = .lt

theorem Sorted.nil : Sorted ([] : List (κ × α)) := List.Pairwise.nil

theorem Sorted.erase {l : List (κ × α)} (hl : Sorted l) (k : κ) : Sorted (erase k l) := List.Pairwise.filter _ hl

variable [Std.LawfulEqOrd κ] {l : List (κ × α)} {k : κ} {v : α}

theorem compare_eq {a b : κ} : (compare a b == .eq) = true ↔ a = b := by
  rw [beq_iff_eq]
  exact Std.LawfulEqOrd.compare_eq_iff_eq

theorem ne_of_compare {a b : κ} (hcmp : compare a b ≠ .eq) : a ≠ b :=
  fun hsame => hcmp (Std.LawfulEqOrd.compare_eq_iff_eq.mpr hsame)

theorem Sorted.ne (hl : Sorted l) : l.Pairwise fun a b => a.1 ≠ b.1 :=
  hl.imp fun hlt => ne_of_compare (by simp [hlt])

theorem find_eq_some (hl : Sorted l) : find k l = some v ↔ (k, v) ∈ l := by
  induction l with
  | nil => simp [find]
  | cons b l ih =>
    obtain ⟨-, hrest⟩ := List.pairwise_cons.mp hl
    by_cases hsame : b.1 = k
    · have hall : ∀ v, (k, v) ∉ l := fun v hv => (List.pairwise_cons.mp hl.ne).1 _ hv hsame
      obtain ⟨key, value⟩ := b
      obtain rfl : key = k := hsame
      simp [find, hall, eq_comm]
    · have hfind : find k (b :: l) = find k l := by
        have hcmp : (compare k b.1 == .eq) = false := by
          rw [Bool.eq_false_iff, Ne, compare_eq]
          exact Ne.symm hsame
        simp [find, hcmp]
      rw [hfind, ih hrest, List.mem_cons]
      refine ⟨Or.inr, ?_⟩
      rintro (rfl | hv)
      · exact absurd rfl hsame
      · exact hv

theorem mem_erase {e : κ × α} : e ∈ erase k l ↔ e ∈ l ∧ e.1 ≠ k := by
  rw [erase, List.mem_filter, bne, Bool.not_eq_true', Bool.eq_false_iff, Ne, compare_eq, eq_comm]

theorem find_eq_none : find k l = none ↔ ∀ e ∈ l, e.1 ≠ k := by
  rw [find, Option.map_eq_none_iff, List.find?_eq_none]
  simp only [compare_eq]
  exact ⟨fun hall e he => Ne.symm (hall e he), fun hall e he => Ne.symm (hall e he)⟩

theorem erase_of_none (hnone : find k l = none) : erase k l = l := by
  rw [erase, List.filter_eq_self]
  intro e he
  rw [bne, Bool.not_eq_true', Bool.eq_false_iff, Ne, compare_eq]
  exact (find_eq_none.mp hnone e he).symm

/-- Taking out a key that was put in gives the map before. -/
theorem erase_set (hnone : find k l = none) : erase k (set k v l) = l := by
  induction l with
  | nil => simp [set, erase]
  | cons b l ih =>
    have hall := find_eq_none.mp hnone
    rw [set]
    cases hcmp : compare k b.1 with
    | lt =>
      have hrest := erase_of_none hnone
      simpa [erase] using hrest
    | eq =>
      have hsame := Std.LawfulEqOrd.eq_of_compare hcmp
      exact absurd hsame.symm (hall b (by simp))
    | gt =>
      have hrest := ih (find_eq_none.mpr fun e he => hall e (by simp [he]))
      simpa [erase, hcmp] using hrest

theorem set_set {w : α} : set k w (set k v l) = set k w l := by
  induction l with
  | nil => simp [set]
  | cons b l ih =>
    rw [set, set]
    cases hcmp : compare k b.1 with
    | lt => simp [set]
    | eq => simp [set]
    | gt => simp [set, hcmp, ih]

variable [Std.TransOrd κ]

/-- A key that is before the first one is none of the keys. -/
theorem Sorted.ne_of_lt {e : κ × α} (hl : Sorted (e :: l)) (hlt : compare k e.1 = .lt) :
    ∀ b ∈ e :: l, b.1 ≠ k ∧ compare k b.1 = .lt := by
  intro b hb
  have hbefore : compare k b.1 = .lt := by
    rcases List.mem_cons.mp hb with rfl | hb
    · exact hlt
    · exact Std.TransCmp.lt_trans hlt ((List.pairwise_cons.mp hl).1 b hb)
  exact ⟨(ne_of_compare (by simp [hbefore])).symm, hbefore⟩

theorem mem_set (hl : Sorted l) {e : κ × α} : e ∈ set k v l ↔ e = (k, v) ∨ (e ∈ l ∧ e.1 ≠ k) := by
  induction l with
  | nil => simp [set]
  | cons b l ih =>
    obtain ⟨hb, hrest⟩ := List.pairwise_cons.mp hl
    rw [set]
    cases hcmp : compare k b.1 with
    | lt =>
      have hall := hl.ne_of_lt hcmp
      simp only [List.mem_cons (a := e) (b := (k, v))]
      refine or_congr_right ⟨fun he => ⟨he, (hall e he).1⟩, And.left⟩
    | eq =>
      obtain rfl := Std.LawfulEqOrd.eq_of_compare hcmp
      have hall : ∀ e ∈ l, e.1 ≠ b.1 := fun e he hsame => (List.pairwise_cons.mp hl.ne).1 e he hsame.symm
      simp only [List.mem_cons]
      refine or_congr_right ⟨fun he => ⟨Or.inr he, hall e he⟩, ?_⟩
      rintro ⟨rfl | he, hne⟩
      · exact absurd rfl hne
      · exact he
    | gt =>
      have hne : b.1 ≠ k := (ne_of_compare (by simp [hcmp])).symm
      simp only [List.mem_cons, ih hrest]
      constructor
      · rintro (rfl | he | ⟨he, hk⟩)
        · exact Or.inr ⟨Or.inl rfl, hne⟩
        · exact Or.inl he
        · exact Or.inr ⟨Or.inr he, hk⟩
      · rintro (he | ⟨rfl | he, hk⟩)
        · exact Or.inr (Or.inl he)
        · exact Or.inl rfl
        · exact Or.inr (Or.inr ⟨he, hk⟩)

theorem Sorted.set (hl : Sorted l) (k : κ) (v : α) : Sorted (set k v l) := by
  induction l with
  | nil => exact List.pairwise_singleton _ _
  | cons b l ih =>
    obtain ⟨hb, hrest⟩ := List.pairwise_cons.mp hl
    rw [SortedMap.set]
    cases hcmp : compare k b.1 with
    | lt => exact List.pairwise_cons.mpr ⟨fun e he => (hl.ne_of_lt hcmp e he).2, hl⟩
    | eq =>
      obtain rfl := Std.LawfulEqOrd.eq_of_compare hcmp
      exact List.pairwise_cons.mpr ⟨hb, hrest⟩
    | gt =>
      refine List.pairwise_cons.mpr ⟨fun e he => ?_, ih hrest⟩
      rcases (mem_set hrest).mp he with rfl | ⟨he, -⟩
      · exact Std.OrientedCmp.gt_iff_lt.mp hcmp
      · exact hb e he

theorem find_set (hl : Sorted l) : find k (set k v l) = some v :=
  (find_eq_some (hl.set k v)).mpr ((mem_set hl).mpr (Or.inl rfl))

theorem find_set_ne {k' : κ} (hl : Sorted l) (hne : k' ≠ k) : find k' (set k v l) = find k' l := by
  refine Option.ext fun x => ?_
  rw [find_eq_some (hl.set k v), find_eq_some hl, mem_set hl]
  constructor
  · rintro (hsame | ⟨hx, -⟩)
    · exact absurd (congrArg Prod.fst hsame) hne
    · exact hx
  · exact fun hx => Or.inr ⟨hx, hne⟩

theorem Sorted.add (hl : Sorted l) (k : κ) (v : α) : Sorted (add k v l) := by
  rw [SortedMap.add]
  split
  · exact hl
  · exact hl.set k v

/-- A key that has a value keeps it. -/
theorem find_add (hl : Sorted l) : find k (add k v l) = some ((find k l).getD v) := by
  rw [add]
  cases hfind : find k l with
  | none => exact find_set hl
  | some x => exact hfind

theorem find_add_ne {k' : κ} (hl : Sorted l) (hne : k' ≠ k) : find k' (add k v l) = find k' l := by
  rw [add]
  split
  · rfl
  · exact find_set_ne hl hne

/-- A value that a key already has changes nothing. -/
theorem set_of_find (hl : Sorted l) (hfind : find k l = some v) : set k v l = l := by
  induction l with
  | nil => cases hfind
  | cons b l ih =>
    obtain ⟨-, hrest⟩ := List.pairwise_cons.mp hl
    have hmem := (find_eq_some hl).mp hfind
    rw [set]
    cases hcmp : compare k b.1 with
    | lt => exact absurd rfl (hl.ne_of_lt hcmp _ hmem).1
    | eq =>
      obtain rfl := Std.LawfulEqOrd.eq_of_compare hcmp
      rcases List.mem_cons.mp hmem with hb | hmem
      · exact congrArg (· :: l) hb
      · exact absurd rfl ((List.pairwise_cons.mp hl.ne).1 (b.1, v) hmem)
    | gt =>
      have hne : k ≠ b.1 := ne_of_compare (by simp [hcmp])
      rcases List.mem_cons.mp hmem with hb | hmem
      · exact absurd (congrArg Prod.fst hb) hne
      · exact congrArg (b :: ·) (ih hrest ((find_eq_some hrest).mpr hmem))

section

variable {β : Type} {entry : β → κ × α} {elements : List β}

theorem Sorted.foldl (hl : Sorted l) : Sorted (elements.foldl (fun map e => SortedMap.set (entry e).1 (entry e).2 map) l) := by
  induction elements generalizing l with
  | nil => exact hl
  | cons e elements ih => exact ih (hl.set _ _)

theorem mem_foldl (hl : Sorted l) (hkeys : elements.Pairwise fun a b => (entry a).1 ≠ (entry b).1) {x : κ × α} :
    x ∈ elements.foldl (fun map e => set (entry e).1 (entry e).2 map) l ↔
      (∃ e ∈ elements, x = entry e) ∨ (x ∈ l ∧ ∀ e ∈ elements, x.1 ≠ (entry e).1) := by
  induction elements generalizing l with
  | nil => simp
  | cons e elements ih =>
    obtain ⟨hnew, hrest⟩ := List.pairwise_cons.mp hkeys
    rw [List.foldl_cons, ih (hl.set _ _) hrest, mem_set hl]
    constructor
    · rintro (⟨e', he', rfl⟩ | ⟨rfl | ⟨hx, hne⟩, hall⟩)
      · exact Or.inl ⟨e', List.mem_cons_of_mem _ he', rfl⟩
      · exact Or.inl ⟨e, List.mem_cons_self, rfl⟩
      · exact Or.inr ⟨hx, List.forall_mem_cons.mpr ⟨hne, hall⟩⟩
    · rintro (⟨e', he', rfl⟩ | ⟨hx, hall⟩)
      · rcases List.mem_cons.mp he' with rfl | he'
        · exact Or.inr ⟨Or.inl rfl, hnew⟩
        · exact Or.inl ⟨e', he', rfl⟩
      · obtain ⟨hne, hall⟩ := List.forall_mem_cons.mp hall
        exact Or.inr ⟨Or.inr ⟨hx, hne⟩, hall⟩

theorem sorted_collect : Sorted (collect entry elements) := Sorted.nil.foldl

/-- Elements with different keys all get their entries. -/
theorem mem_collect (hkeys : elements.Pairwise fun a b => (entry a).1 ≠ (entry b).1) {x : κ × α} :
    x ∈ collect entry elements ↔ ∃ e ∈ elements, x = entry e := by
  rw [collect, mem_foldl Sorted.nil hkeys]
  simp

end

end

end SortedMap
