import Mathlib.Data.List.Flatten
import Mathlib.Data.List.Nodup
import Mathlib.Data.List.Perm.Basic
import Mathlib.Data.List.Perm.Subperm

namespace Shares

variable {α β κ : Type}

/-- What the first `n` owners have is everything that belongs to one of them. -/
theorem flatMap_filter_perm (owner : α → Nat) (l : List α) (n : Nat) :
    ((List.range n).flatMap fun i => l.filter fun a => owner a = i).Perm (l.filter fun a => owner a < n) := by
  induction n with
  | zero => simp
  | succ n ih =>
    rw [List.range_succ, List.flatMap_append, List.flatMap_singleton]
    have hbelow : (l.filter fun a => owner a < n) =
        (l.filter fun a => owner a < n + 1).filter fun a => owner a < n := by
      rw [List.filter_filter]
      refine List.filter_congr fun a _ => ?_
      rw [← Bool.decide_and, decide_eq_decide]
      omega
    have hlast : (l.filter fun a => owner a = n) =
        (l.filter fun a => owner a < n + 1).filter fun a => !decide (owner a < n) := by
      rw [List.filter_filter]
      refine List.filter_congr fun a _ => ?_
      rw [← decide_not, ← Bool.decide_and, decide_eq_decide]
      omega
    refine (ih.append_right _).trans ?_
    rw [hbelow, hlast]
    exact List.filter_append_perm _ _

/-- What worker `i` of `n` gets when the places are handed out by `owner`. -/
def share (owner : Nat → Nat) (n i : Nat) (l : List α) : List α :=
  (l.zipIdx.filter fun x => owner x.2 % n = i).map Prod.fst

/-- Nothing is lost or done twice when places are handed out to `n` workers. -/
theorem perm (owner : Nat → Nat) {n : Nat} (hn : 0 < n) (l : List α) :
    ((List.range n).flatMap fun i => share owner n i l).Perm l := by
  have hshares := flatMap_filter_perm (fun x : α × Nat => owner x.2 % n) l.zipIdx n
  have hall : (l.zipIdx.filter fun x => owner x.2 % n < n) = l.zipIdx :=
    List.filter_eq_self.mpr fun x _ => decide_eq_true (Nat.mod_lt _ hn)
  rw [hall] at hshares
  have hmap := hshares.map Prod.fst
  rwa [List.map_flatMap, List.zipIdx_map_fst] at hmap

/-- So it does not matter who does what. -/
theorem flatMap_perm (owner : Nat → Nat) {n : Nat} (hn : 0 < n) (l : List α) {f : Nat → List β} {g : α → List β}
    (hf : ∀ i < n, f i = (share owner n i l).flatMap g) : ((List.range n).flatMap f).Perm (l.flatMap g) := by
  rw [List.flatMap_congr fun i hi => hf i (List.mem_range.mp hi), ← List.flatMap_assoc]
  exact (perm owner hn l).flatMap_right g

theorem flatMap_subperm {l : List α} {f g : α → List β} (h : ∀ a ∈ l, (f a).Subperm (g a)) :
    (l.flatMap f).Subperm (l.flatMap g) := by
  induction l with
  | nil => exact .refl _
  | cons a l ih =>
    simp only [List.flatMap_cons]
    exact (h a (by simp)).append (ih fun b hb => h b (List.mem_cons_of_mem a hb))

/-- What the workers find is part of what there is to be found. -/
theorem subperm (owner : Nat → Nat) {n : Nat} (hn : 0 < n) (l : List α) {f : Nat → List β} {g : α → List β}
    (hf : ∀ i, (f i).Subperm ((share owner n i l).flatMap g)) : ((List.range n).flatMap f).Subperm (l.flatMap g) :=
  (flatMap_subperm fun i _ => hf i).trans (flatMap_perm owner hn l fun _ _ => rfl).subperm

theorem subperm_flatMap {l l' : List α} (h : l.Subperm l') (f : α → List β) : (l.flatMap f).Subperm (l'.flatMap f) := by
  obtain ⟨l₀, hperm, hsub⟩ := h
  exact ⟨l₀.flatMap f, hperm.flatMap_right f, hsub.flatMap f⟩

theorem range'_sublist {a n b m : Nat} (hlo : b ≤ a) (hhi : a + n ≤ max a (b + m)) :
    (List.range' a n).Sublist (List.range' b m) := by
  rcases Nat.eq_zero_or_pos n with rfl | hn
  · exact List.nil_sublist _
  · have hsplit : m = (a - b) + (n + (b + m - (a + n))) := by omega
    rw [hsplit, ← List.range'_append_1, show b + (a - b) = a by omega, ← List.range'_append_1]
    exact (List.sublist_append_left _ _).trans (List.sublist_append_right _ _)

theorem nodup_of_subperm {l l' : List α} (h : l.Subperm l') (hnodup : l'.Nodup) : l.Nodup := by
  obtain ⟨l₀, hperm, hsub⟩ := h
  exact hperm.nodup (hnodup.sublist hsub)

/-- An order that tells any two elements of a list apart leaves its sort no choice. -/
theorem mergeSort_eq_of_perm {le : α → α → Bool} {key : α → κ} {l l' : List α}
    (htrans : ∀ a b c, le a b = true → le b c = true → le a c = true)
    (htotal : ∀ a b, (le a b || le b a) = true)
    (hkey : ∀ a b, le a b = true → le b a = true → key a = key b)
    (hdistinct : (l.map key).Nodup) (hperm : l.Perm l') : l.mergeSort le = l'.mergeSort le := by
  have hsorted := (List.mergeSort_perm l le).trans (hperm.trans (List.mergeSort_perm l' le).symm)
  refine List.Perm.eq_of_pairwise (fun a b ha hb hab hba => ?_) (List.pairwise_mergeSort htrans htotal l)
    (List.pairwise_mergeSort htrans htotal l') hsorted
  rw [List.mem_mergeSort] at ha hb
  exact List.inj_on_of_nodup_map hdistinct ha (hperm.mem_iff.mpr hb) (hkey a b hab hba)

end Shares
