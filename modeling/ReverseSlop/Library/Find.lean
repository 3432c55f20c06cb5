import Mathlib.Data.List.Basic

namespace Find

section

variable {α : Type} [DecidableEq α]

/-- The first place from `pos` on with a string, as of `std::string::find`. -/
def find (s xs : List α) (pos : Nat) : Option Nat :=
  (List.range' pos (s.length + 1 - xs.length - pos)).find? fun i => decide (xs <+: s.drop i)

/-- The last place of a character, as of `std::string::rfind`. -/
def rfind (c : α) : List α → Option Nat
  | [] => none
  | a :: s =>
    match rfind c s with
    | some i => some (i + 1)
    | none => if a = c then some 0 else none

/-- The first place from `pos` on. -/
def FirstFrom (s xs : List α) (pos i : Nat) : Prop := pos ≤ i ∧ xs <+: s.drop i ∧ ∀ j, pos ≤ j → j < i → ¬ xs <+: s.drop j

/-- The first place. -/
def First (s xs : List α) (i : Nat) : Prop := xs <+: s.drop i ∧ ∀ j < i, ¬ xs <+: s.drop j

variable {s t xs : List α} {pos i j : Nat} {c : α}

omit [DecidableEq α] in
theorem place_in (hxs : xs ≠ []) (hi : xs <+: s.drop i) : i + xs.length ≤ s.length := by
  have hpos := List.length_pos_iff.mpr hxs
  have hle := hi.length_le
  rw [List.length_drop] at hle
  omega

omit [DecidableEq α] in
theorem First.unique (hi : First s xs i) (hj : First s xs j) : i = j := by
  rcases Nat.lt_trichotomy i j with hlt | heq | hlt
  · exact absurd hi.1 (hj.2 i hlt)
  · exact heq
  · exact absurd hj.1 (hi.2 j hlt)

omit [DecidableEq α] in
/-- What stands in the front of a string stands in the string, too. -/
theorem place_append (hin : i + xs.length ≤ s.length) : xs <+: (s ++ t).drop i ↔ xs <+: s.drop i := by
  have hlen : xs.length ≤ (s.drop i).length := by
    rw [List.length_drop]
    omega
  rw [List.drop_append_of_le_length (by omega)]
  exact ⟨fun h => List.prefix_of_prefix_length_le h (List.prefix_append _ _) hlen, fun h => h.trans (List.prefix_append _ _)⟩

theorem find_eq_some (hxs : xs ≠ []) : find s xs pos = some i ↔ FirstFrom s xs pos i := by
  rw [find, List.find?_range'_eq_some]
  simp only [decide_eq_true_eq, List.mem_range'_1, Bool.not_eq_true', decide_eq_false_iff_not, FirstFrom]
  constructor
  · rintro ⟨hi, hrange, hfirst⟩
    exact ⟨hrange.1, hi, hfirst⟩
  · rintro ⟨hpos, hi, hfirst⟩
    have hin := place_in hxs hi
    exact ⟨hi, by omega, hfirst⟩

theorem find_eq_none (hxs : xs ≠ []) : find s xs pos = none ↔ ∀ i, pos ≤ i → ¬ xs <+: s.drop i := by
  rw [find, List.find?_range'_eq_none]
  simp only [Bool.not_eq_true', decide_eq_false_iff_not]
  constructor
  · intro hnone i hpos hi
    have hin := place_in hxs hi
    exact hnone i hpos (by omega) hi
  · exact fun hnone i hpos _ => hnone i hpos

theorem find_zero (hxs : xs ≠ []) : find s xs 0 = some i ↔ First s xs i := by
  rw [find_eq_some hxs]
  exact ⟨fun ⟨_, hi, hfirst⟩ => ⟨hi, fun j hj => hfirst j (Nat.zero_le j) hj⟩, fun ⟨hi, hfirst⟩ =>
    ⟨Nat.zero_le i, hi, fun j _ hj => hfirst j hj⟩⟩

/-- A place found in the front is the one found in the whole. -/
theorem find_append (hxs : xs ≠ []) (hi : find s xs pos = some i) : find (s ++ t) xs pos = some i := by
  rw [find_eq_some hxs] at hi ⊢
  obtain ⟨hpos, hi, hfirst⟩ := hi
  have hin := place_in hxs hi
  refine ⟨hpos, (place_append hin).mpr hi, fun j hj hlt => ?_⟩
  rw [place_append (by omega)]
  exact hfirst j hj hlt

/-- A search from a place is a search in what is behind it. -/
theorem find_drop (hxs : xs ≠ []) : find s xs pos = (find (s.drop pos) xs 0).map (· + pos) := by
  cases hfind : find (s.drop pos) xs 0 with
  | none =>
    rw [find_eq_none hxs] at hfind
    rw [Option.map_none, find_eq_none hxs]
    intro i hi hplace
    rw [show i = pos + (i - pos) by omega, ← List.drop_drop] at hplace
    exact hfind (i - pos) (Nat.zero_le _) hplace
  | some i =>
    rw [find_zero hxs] at hfind
    obtain ⟨hi, hfirst⟩ := hfind
    rw [List.drop_drop] at hi
    rw [Option.map_some, find_eq_some hxs]
    refine ⟨Nat.le_add_left pos i, by rwa [Nat.add_comm], fun j hj hlt hplace => ?_⟩
    rw [show j = pos + (j - pos) by omega, ← List.drop_drop] at hplace
    exact hfirst (j - pos) (by omega) hplace

theorem rfind_eq_none : rfind c s = none ↔ c ∉ s := by
  induction s with
  | nil => simp [rfind]
  | cons a s ih =>
    rw [rfind]
    cases hrest : rfind c s with
    | none =>
      have hnot := ih.mp hrest
      split <;> simp_all [eq_comm]
    | some i =>
      have hmem : c ∈ s := by
        by_contra hnot
        rw [ih.mpr hnot] at hrest
        cases hrest
      simp [hmem]

/-- The string is cut at the last place of the character. -/
theorem rfind_append (ht : c ∉ t) : rfind c (s ++ c :: t) = some s.length := by
  induction s with
  | nil => rw [List.nil_append, rfind, rfind_eq_none.mpr ht, if_pos rfl]; rfl
  | cons a s ih => rw [List.cons_append, rfind, ih]; rfl

/-- Behind the last place the character does not stand. -/
theorem rfind_eq_some (hi : rfind c s = some i) : ∃ a b, s = a ++ c :: b ∧ c ∉ b ∧ a.length = i := by
  induction s generalizing i with
  | nil => cases hi
  | cons d s ih =>
    rw [rfind] at hi
    split at hi
    · rename_i j hj
      obtain ⟨a, b, hs, hb, hlen⟩ := ih hj
      cases hi
      exact ⟨d :: a, b, by rw [hs, List.cons_append], hb, by rw [List.length_cons, hlen]⟩
    · rename_i hnone
      split at hi
      · rename_i heq
        cases hi
        exact ⟨[], s, by rw [heq, List.nil_append], rfind_eq_none.mp hnone, rfl⟩
      · cases hi

omit [DecidableEq α] in
theorem singleton_prefix_drop : [c] <+: s.drop i ↔ s[i]? = some c := by
  rw [List.singleton_prefix_iff_head?_eq_some, List.head?_drop]

omit [DecidableEq α] in
/-- The parts around the first place of a character are determined. -/
theorem cut_inj {a b x y : List α} (ha : c ∉ a) (hb : c ∉ b) (heq : a ++ c :: x = b ++ c :: y) : a = b ∧ x = y := by
  induction a generalizing b with
  | nil =>
    cases b with
    | nil => exact ⟨rfl, (List.cons.inj heq).2⟩
    | cons d b => exact absurd (List.mem_cons.mpr (.inl (List.cons.inj heq).1)) hb
  | cons d a ih =>
    cases b with
    | nil => exact absurd (List.mem_cons.mpr (.inl (List.cons.inj heq).1.symm)) ha
    | cons e b =>
      obtain ⟨hhead, htail⟩ := List.cons.inj heq
      obtain ⟨rfl, hrest⟩ := ih (fun h => ha (List.mem_cons_of_mem d h)) (fun h => hb (List.mem_cons_of_mem e h)) htail
      exact ⟨by rw [hhead], hrest⟩

/-- A character is found where it stands first. -/
theorem find_char_append (hs : c ∉ s) : find (s ++ c :: t) [c] 0 = some s.length := by
  rw [find_zero (List.cons_ne_nil c []), First, List.drop_left]
  refine ⟨⟨t, rfl⟩, fun j hj hplace => ?_⟩
  rw [singleton_prefix_drop, List.getElem?_append_left hj] at hplace
  exact hs (List.mem_of_getElem? hplace)

theorem find_char_none : find s [c] pos = none ↔ c ∉ s.drop pos := by
  rw [find_eq_none (List.cons_ne_nil c [])]
  constructor
  · intro hnone hmem
    obtain ⟨i, hi⟩ := List.getElem?_of_mem hmem
    rw [List.getElem?_drop] at hi
    exact hnone (pos + i) (Nat.le_add_right pos i) (singleton_prefix_drop.mpr hi)
  · intro hnot i hi hplace
    rw [singleton_prefix_drop] at hplace
    refine hnot (List.mem_of_getElem? (i := i - pos) ?_)
    rw [List.getElem?_drop, Nat.add_sub_cancel' hi, hplace]

end

end Find
