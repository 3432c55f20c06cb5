import Mathlib.Data.List.Basic
import Mathlib.Data.List.Pairwise

namespace Keyed

/-- No two elements have the same key. -/
def Distinct {α κ : Type} (key : α → κ) (l : List α) : Prop := l.Pairwise fun a b => key a ≠ key b

instance {α κ : Type} [DecidableEq κ] (key : α → κ) (l : List α) : Decidable (Distinct key l) :=
  inferInstanceAs (Decidable (l.Pairwise fun a b => key a ≠ key b))

section

variable {α κ : Type} {key : α → κ} {l : List α}

/-- Writing an element without changing its key leaves the keys alone. -/
theorem map_modify {l : List α} {i : Nat} {f : α → α} (hf : ∀ a, l[i]? = some a → key (f a) = key a) :
    (l.modify i f).map key = l.map key := by
  induction l generalizing i with
  | nil => simp
  | cons b l ih =>
    cases i with
    | zero => rw [List.modify_zero_cons, List.map_cons, List.map_cons, hf b rfl]
    | succ i =>
      rw [List.modify_succ_cons, List.map_cons, List.map_cons, ih]
      intro a ha
      exact hf a (by simpa using ha)

/-- An element stays, unless it is the one written. -/
theorem mem_modify_of_mem {l : List α} {b : α} (hb : b ∈ l) (i : Nat) (f : α → α) :
    b ∈ l.modify i f ∨ f b ∈ l.modify i f := by
  obtain ⟨j, hj⟩ := List.getElem?_of_mem hb
  by_cases hij : i = j
  · refine Or.inr (List.mem_of_getElem? (i := j) ?_)
    rw [← hij, List.getElem?_modify_eq, hij, hj]
    rfl
  · refine Or.inl (List.mem_of_getElem? (i := j) ?_)
    rw [List.getElem?_modify_ne _ _ hij, hj]

/-- Only the keys decide whether they are distinct. -/
theorem Distinct.congr {l' : List α} (hl : Distinct key l) (hkeys : l'.map key = l.map key) : Distinct key l' := by
  rw [Distinct, ← List.pairwise_map (R := fun a b => a ≠ b), hkeys, List.pairwise_map]
  exact hl

theorem Distinct.eq_of_key (hl : Distinct key l) {a b : α} (ha : a ∈ l) (hb : b ∈ l) (hkey : key a = key b) :
    a = b := by
  obtain ⟨i, hi, rfl⟩ := List.mem_iff_getElem.mp ha
  obtain ⟨j, hj, rfl⟩ := List.mem_iff_getElem.mp hb
  rcases Nat.lt_trichotomy i j with h | rfl | h
  · exact absurd hkey (List.pairwise_iff_getElem.mp hl i j hi hj h)
  · rfl
  · exact absurd hkey.symm (List.pairwise_iff_getElem.mp hl j i hj hi h)

theorem Distinct.filter (hl : Distinct key l) (keep : α → Bool) : Distinct key (l.filter keep) :=
  List.Pairwise.filter keep hl

theorem Distinct.append (hl : Distinct key l) {a : α} (hnew : ∀ b ∈ l, key b ≠ key a) :
    Distinct key (l ++ [a]) := by
  refine List.pairwise_append.mpr ⟨hl, List.pairwise_singleton _ a, ?_⟩
  intro b hb c hc
  rw [List.mem_singleton.mp hc]
  exact hnew b hb

/-- Writing an element without changing its key replaces it and nothing else. -/
theorem Distinct.mem_modify (hl : Distinct key l) {i : Nat} {a : α} {f : α → α} (hget : l[i]? = some a)
    (x : α) : x ∈ l.modify i f ↔ x = f a ∨ (x ∈ l ∧ key x ≠ key a) := by
  induction l generalizing i with
  | nil => simp at hget
  | cons b l ih =>
    obtain ⟨hb, hrest⟩ := List.pairwise_cons.mp hl
    cases i with
    | zero =>
      obtain rfl : b = a := by simpa using hget
      simp only [List.modify_zero_cons, List.mem_cons]
      constructor
      · rintro (rfl | hx)
        · exact Or.inl rfl
        · exact Or.inr ⟨Or.inr hx, (hb x hx).symm⟩
      · rintro (rfl | ⟨rfl | hx, hne⟩)
        · exact Or.inl rfl
        · exact absurd rfl hne
        · exact Or.inr hx
    | succ i =>
      rw [List.getElem?_cons_succ] at hget
      have ha : a ∈ l := List.mem_of_getElem? hget
      simp only [List.modify_succ_cons, List.mem_cons, ih hrest hget]
      constructor
      · rintro (rfl | rfl | ⟨hx, hne⟩)
        · exact Or.inr ⟨Or.inl rfl, hb a ha⟩
        · exact Or.inl rfl
        · exact Or.inr ⟨Or.inr hx, hne⟩
      · rintro (rfl | ⟨rfl | hx, hne⟩)
        · exact Or.inr (Or.inl rfl)
        · exact Or.inl rfl
        · exact Or.inr (Or.inr ⟨hx, hne⟩)

theorem Distinct.modify (hl : Distinct key l) {i : Nat} {f : α → α} (hf : ∀ a, l[i]? = some a → key (f a) = key a) :
    Distinct key (l.modify i f) :=
  hl.congr (map_modify hf)

end

/-- A map whose elements hold their own keys, in the order in which it is walked. -/
structure Map {α κ : Type} (key : α → κ) where
  list : List α := []
  distinct : Distinct key list := by exact List.Pairwise.nil

section

variable {α κ : Type} {key : α → κ} [DecidableEq κ] (m : Map key)

def Map.find (k : κ) : Option α := m.list.find? fun a => key a = k

/-- Write an element under its key. -/
def Map.set (a : α) : Map key where
  list := m.list.filter (fun b => key b ≠ key a) ++ [a]
  distinct := (m.distinct.filter _).append fun _ hb => of_decide_eq_true (List.mem_filter.mp hb).2

omit [DecidableEq κ] in
theorem Distinct.map {l : List α} (hl : Distinct key l) {f : α → α} (hf : ∀ a, key (f a) = key a) :
    Distinct key (l.map f) := by
  refine hl.congr ?_
  rw [List.map_map]
  exact List.map_congr_left fun a _ => hf a

/-- Change the elements, but not their keys. -/
def Map.update (f : α → α) (hf : ∀ a, key (f a) = key a) : Map key where
  list := m.list.map f
  distinct := m.distinct.map hf

variable {m}

theorem Map.find_eq_some {k : κ} {a : α} : m.find k = some a ↔ a ∈ m.list ∧ key a = k := by
  rw [Map.find]
  constructor
  · intro hfind
    exact ⟨List.mem_of_find?_eq_some hfind, by simpa using List.find?_some hfind⟩
  · intro h
    obtain ⟨hmem, hkey⟩ := h
    cases hfind : m.list.find? fun a => key a = k with
    | none => exact absurd (decide_eq_true hkey) (List.find?_eq_none.mp hfind a hmem)
    | some b =>
      have hb : key b = k := by simpa using List.find?_some hfind
      rw [m.distinct.eq_of_key (List.mem_of_find?_eq_some hfind) hmem (hb.trans hkey.symm)]

theorem Map.find_isSome {k : κ} : (m.find k).isSome = true ↔ ∃ a ∈ m.list, key a = k := by
  rw [Option.isSome_iff_exists]
  exact exists_congr fun _ => Map.find_eq_some

theorem Map.mem_set {a b : α} : b ∈ (m.set a).list ↔ b = a ∨ b ∈ m.list ∧ key b ≠ key a := by
  rw [Map.set, List.mem_append, List.mem_filter, List.mem_singleton, decide_eq_true_iff]
  exact or_comm

end

end Keyed
