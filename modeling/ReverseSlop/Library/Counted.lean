import Mathlib.Data.List.Basic

namespace Counted

section

variable {α : Type} {seq : α → Nat} {l : List α}

/-- The elements of a list carry the numbers 1, 2, 3 and so on. -/
def Numbered (seq : α → Nat) (l : List α) : Prop := ∀ i a, l[i]? = some a → seq a = i + 1

theorem nil : Numbered seq [] := fun i a h => by cases h

theorem Numbered.append (h : Numbered seq l) {a : α} (ha : seq a = l.length + 1) : Numbered seq (l ++ [a]) := by
  intro i b hb
  obtain hlt | heq | hgt := Nat.lt_trichotomy i l.length
  · rw [List.getElem?_append_left hlt] at hb
    exact h i b hb
  · rw [heq, List.getElem?_concat_length] at hb
    cases hb
    rw [ha, heq]
  · rw [List.getElem?_eq_none (by simp; omega)] at hb
    cases hb

theorem Numbered.take (h : Numbered seq l) (k : Nat) : Numbered seq (l.take k) := by
  intro i a ha
  rw [List.getElem?_take] at ha
  split at ha
  · exact h i a ha
  · cases ha

theorem Numbered.bounds (h : Numbered seq l) {a : α} (ha : a ∈ l) : 0 < seq a ∧ seq a ≤ l.length := by
  obtain ⟨i, hi⟩ := List.getElem?_of_mem ha
  have hlt := (List.getElem?_eq_some_iff.mp hi).1
  rw [h i a hi]
  omega

/-- The element that carries a number stands in its place. -/
theorem Numbered.get (h : Numbered seq l) {a : α} (ha : a ∈ l) {k : Nat} (hk : seq a = k + 1) : l[k]? = some a := by
  obtain ⟨i, hi⟩ := List.getElem?_of_mem ha
  rw [h i a hi, Nat.succ_inj] at hk
  rw [← hk, hi]

theorem Numbered.take_succ (h : Numbered seq l) {a : α} (ha : a ∈ l) {k : Nat} (hk : seq a = k + 1) :
    l.take k ++ [a] = l.take (k + 1) := by
  rw [List.take_add_one, h.get ha hk, Option.toList_some]

theorem Numbered.mem_take (h : Numbered seq l) {a : α} {k : Nat} (ha : a ∈ l.take k) : seq a ≤ k :=
  Nat.le_trans ((h.take k).bounds ha).2 (List.length_take_le k l)

theorem Numbered.mem_drop (h : Numbered seq l) {a : α} {k : Nat} (ha : a ∈ l.drop k) : k < seq a := by
  obtain ⟨i, hi⟩ := List.getElem?_of_mem ha
  rw [List.getElem?_drop] at hi
  rw [h _ a hi]
  omega

theorem Numbered.head_drop (h : Numbered seq l) {a : α} {k : Nat} (ha : a ∈ (l.drop k).head?) : seq a = k + 1 := by
  rw [List.head?_drop] at ha
  exact h k a ha

theorem Numbered.getLast_drop (h : Numbered seq l) {a : α} {k : Nat} (ha : a ∈ (l.drop k).getLast?) :
    seq a = l.length := by
  rw [List.getLast?_drop] at ha
  split at ha
  · cases ha
  · rw [List.getLast?_eq_getElem?] at ha
    have hlast := h (l.length - 1) a ha
    omega

/-- The elements with larger numbers are those behind. -/
theorem Numbered.filter (h : Numbered seq l) (k : Nat) : (l.filter fun a => k < seq a) = l.drop k := by
  conv_lhs => rw [← List.take_append_drop k l]
  rw [List.filter_append, List.filter_eq_nil_iff.mpr, List.filter_eq_self.mpr, List.nil_append]
  · exact fun a ha => decide_eq_true (h.mem_drop ha)
  · exact fun a ha hlt => absurd (of_decide_eq_true hlt) (Nat.not_lt.mpr (h.mem_take ha))

theorem Numbered.dropWhile (h : Numbered seq l) (k : Nat) : (l.dropWhile fun a => seq a ≤ k) = l.drop k := by
  conv_lhs => rw [← List.take_append_drop k l]
  rw [List.dropWhile_append_of_pos fun a ha => decide_eq_true (h.mem_take ha)]
  cases hrest : l.drop k with
  | nil => rfl
  | cons a rest =>
    have ha : k < seq a := h.mem_drop (hrest ▸ List.mem_cons_self)
    rw [List.dropWhile_cons_of_neg]
    exact fun hle => absurd (of_decide_eq_true hle) (Nat.not_le.mpr ha)

theorem Numbered.filter_drop (h : Numbered seq l) {j k : Nat} (hjk : j ≤ k) :
    ((l.drop j).filter fun a => k < seq a) = l.drop k := by
  rw [← h.filter j, List.filter_filter, ← h.filter k]
  refine List.filter_congr fun a _ => ?_
  rw [← Bool.decide_and, decide_eq_decide]
  exact and_iff_left_of_imp fun hlt => Nat.lt_of_le_of_lt hjk hlt

/-- A part of the list behind what there is already continues it. -/
theorem Numbered.take_append (h : Numbered seq l) {j k m : Nat} (hjk : j ≤ k) :
    l.take k ++ ((l.take m).drop j).filter (fun a => k < seq a) = l.take (max k m) := by
  rw [(h.take m).filter_drop hjk]
  obtain hkm | hmk := Nat.le_total k m
  · rw [Nat.max_eq_right hkm]
    conv_rhs => rw [← List.take_append_drop k (l.take m), List.take_take, Nat.min_eq_left hkm]
  · rw [Nat.max_eq_left hmk, List.drop_eq_nil_of_le, List.append_nil]
    exact Nat.le_trans (List.length_take_le m l) hmk

end

end Counted

namespace Capped

/-- A collector that stops at a cap and says so. -/
structure Sink (α : Type) where
  items : List α
  full : Bool

/-- A step that collects from `hits`: it keeps their order, leaves one out only
when it ends full, and ends full only when it had to. -/
structure Adds {α : Type} (cap : Nat) (hits : List α) (before after : Sink α) : Prop where
  sublist : ∃ taken, taken.Sublist hits ∧ after.items = before.items ++ taken
  complete : after.full = false → after.items = before.items ++ hits
  keeps : before.full = true → after.full = true
  room : before.full = false → before.items.length + hits.length < cap → after.full = false

section

variable {α : Type} {cap : Nat} {first second : List α} {s t u : Sink α}

theorem Adds.refl (cap : Nat) (s : Sink α) : Adds cap [] s s where
  sublist := ⟨[], by simp, by simp⟩
  complete _ := by simp
  keeps h := h
  room h _ := h

theorem Adds.trans (hfirst : Adds cap first s t) (hsecond : Adds cap second t u) :
    Adds cap (first ++ second) s u where
  sublist := by
    obtain ⟨left, hleft, hitems⟩ := hfirst.sublist
    obtain ⟨right, hright, hitems'⟩ := hsecond.sublist
    exact ⟨left ++ right, hleft.append hright, by simp [hitems', hitems]⟩
  complete hfull := by
    have hmid : t.full = false := by
      by_contra hnot
      simp [hsecond.keeps (by simpa using hnot)] at hfull
    simp [hsecond.complete hfull, hfirst.complete hmid]
  keeps h := hsecond.keeps (hfirst.keeps h)
  room hempty hlen := by
    rw [List.length_append] at hlen
    have hmid := hfirst.room hempty (by omega)
    refine hsecond.room hmid ?_
    rw [hfirst.complete hmid, List.length_append]
    omega

/-- A step that ends full may leave out everything that was still to come. -/
theorem Adds.stop (hfirst : Adds cap first s t) (hfull : t.full = true) (rest : List α) :
    Adds cap (first ++ rest) s t where
  sublist := by
    obtain ⟨taken, htaken, hitems⟩ := hfirst.sublist
    exact ⟨taken, htaken.trans (List.sublist_append_left first rest), hitems⟩
  complete hnot := by simp [hfull] at hnot
  keeps _ := hfull
  room hempty hlen := by
    rw [List.length_append] at hlen
    exact hfirst.room hempty (by omega)

/-- A step that finds the collector at its cap may stop at once. -/
theorem Adds.at_cap (hcap : cap ≤ s.items.length) (hitems : t.items = s.items) (hfull : t.full = true)
    (hits : List α) : Adds cap hits s t where
  sublist := ⟨[], by simp, by simp [hitems]⟩
  complete hnot := by simp [hfull] at hnot
  keeps _ := hfull
  room _ hlen := by omega

/-- A step after which the cap is found to be reached may be declared full. -/
theorem Adds.close (hfirst : Adds cap first s t) (hcap : cap ≤ t.items.length) (rest : List α) :
    Adds cap (first ++ rest) s ⟨t.items, true⟩ :=
  hfirst.trans (.at_cap (t := ⟨t.items, true⟩) hcap rfl rfl rest)

theorem Adds.mem_of_mem (hadds : Adds cap first s t) {x : α} (hx : x ∈ t.items) : x ∈ s.items ∨ x ∈ first := by
  obtain ⟨taken, htaken, hitems⟩ := hadds.sublist
  rw [hitems, List.mem_append] at hx
  exact hx.imp_right fun h => htaken.subset h

/-- All that is in a collector that was empty comes from the hits, in their order. -/
theorem Adds.map_sublist {β : Type} {full : Bool} (hadds : Adds cap first ⟨[], full⟩ t) (f : α → β) :
    (t.items.map f).Sublist (first.map f) := by
  obtain ⟨taken, htaken, hitems⟩ := hadds.sublist
  rw [hitems, List.nil_append]
  exact htaken.map f

end

section

variable {α β : Type} (cap : Nat)

/-- What was cut off at the cap would have been cut off later. -/
theorem take_append_left (first second : List α) :
    (first.take cap ++ second).take cap = (first ++ second).take cap := by
  rw [List.take_append, List.take_append, List.take_take, Nat.min_self, List.length_take]
  congr 2
  omega

theorem take_append_right (first second : List α) :
    (first ++ second.take cap).take cap = (first ++ second).take cap := by
  rw [List.take_append, List.take_append, List.take_take, Nat.min_eq_left (Nat.sub_le _ _)]

theorem take_flatMap (f : β → List α) (parts : List β) :
    (parts.flatMap fun part => (f part).take cap).take cap = (parts.flatMap f).take cap := by
  induction parts with
  | nil => rfl
  | cons part parts ih =>
    rw [List.flatMap_cons, List.flatMap_cons, take_append_left, ← take_append_right, ih, take_append_right]

/-- As long as nothing fills the list up to the cap alone, the cut does not hide that there are two. -/
theorem existsUnique_mem_take [DecidableEq α] {l : List α} (hcount : ∀ a, l.count a < cap) :
    (∃! a, a ∈ l.take cap) ↔ ∃! a, a ∈ l := by
  by_cases hshort : l.length ≤ cap
  · rw [List.take_of_length_le hshort]
  refine iff_of_false ?_ ?_
  · rintro ⟨a, -, hall⟩
    have hfull := List.count_eq_length.mpr fun b hb => (hall b hb).symm
    rw [List.length_take_of_le (by omega)] at hfull
    have hle := (List.take_sublist cap l).count_le a
    exact absurd (hcount a) (by omega)
  · rintro ⟨a, -, hall⟩
    have hfull := List.count_eq_length.mpr fun b hb => (hall b hb).symm
    exact absurd (hcount a) (by omega)

end

end Capped
