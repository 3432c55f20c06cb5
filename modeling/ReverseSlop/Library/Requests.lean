import Mathlib.Data.List.Basic

/-! Lists that are read page by page, each page from a cursor on. -/
namespace Paging

structure Page (α : Type) where
  items : List α := []
  truncated : Bool := false

section

variable {α κ : Type} [LT κ] [DecidableLT κ] {key : α → κ} {xs : List α} {cursor : κ} {limit : Nat}

/-- What has a key above a cursor. -/
def behind (key : α → κ) (xs : List α) (cursor : κ) : List α := xs.filter fun x => cursor < key x

/-- A page has the first elements behind its cursor, and says whether there are more. -/
def cut (key : α → κ) (xs : List α) (limit : Nat) (cursor : κ) : Page α where
  items := (behind key xs cursor).take limit
  truncated := limit < (behind key xs cursor).length

/-- Page after page, each from the last element of the one before, as long as there are more. -/
def read_all (key : α → κ) (page : κ → Page α) : Nat → κ → Option (List α)
  | 0, _ => none
  | n + 1, cursor =>
    let p := page cursor
    if p.truncated then
      match p.items.getLast? with
      | some x => (read_all key page n (key x)).map (p.items ++ ·)
      | none => none
    else some p.items

theorem mem_behind {x : α} : x ∈ behind key xs cursor ↔ x ∈ xs ∧ cursor < key x := by
  simp [behind]

variable [LE κ] [Std.IsLinearOrder κ] [Std.LawfulOrderLT κ]

/-- Behind the last element of a page is what the page left. -/
theorem behind_last {x : α} (hsorted : xs.Pairwise fun x y => key x < key y)
    (hlast : ((behind key xs cursor).take limit).getLast? = some x) :
    behind key xs (key x) = (behind key xs cursor).drop limit := by
  obtain ⟨init, hinit⟩ := List.getLast?_eq_some_iff.mp hlast
  have hparts : behind key xs cursor = (init ++ [x]) ++ (behind key xs cursor).drop limit := by
    rw [← hinit, List.take_append_drop]
  have hrest : (behind key xs cursor).Pairwise fun x y => key x < key y := hsorted.filter _
  rw [hparts, List.pairwise_append, List.pairwise_append] at hrest
  obtain ⟨⟨-, -, hbefore⟩, -, hafter⟩ := hrest
  have hx : cursor < key x := by
    refine (@mem_behind _ _ _ _ key xs _ _).mp ?_ |>.2
    rw [hparts]
    simp
  have hnarrow : behind key xs (key x) = (behind key xs cursor).filter fun y => key x < key y := by
    rw [behind, behind, List.filter_filter]
    refine List.filter_congr fun y _ => ?_
    by_cases hy : key x < key y
    · simp [hy, Std.lt_trans hx hy]
    · simp [hy]
  have hfront : (init ++ [x]).filter (fun y => decide (key x < key y)) = [] := by
    refine List.filter_eq_nil_iff.mpr fun y hy => ?_
    rcases List.mem_append.mp hy with hy | hy
    · simpa using fun hback => Std.lt_irrefl (Std.lt_trans hback (hbefore y hy x (List.mem_singleton_self x)))
    · rw [List.mem_singleton.mp hy]
      simpa using Std.lt_irrefl
  have hback : ((behind key xs cursor).drop limit).filter (fun y => decide (key x < key y)) =
      (behind key xs cursor).drop limit := by
    refine List.filter_eq_self.mpr fun y hy => ?_
    simpa using hafter x (List.mem_append_right _ (List.mem_singleton_self x)) y hy
  rw [hnarrow]
  conv => lhs; rw [hparts]
  rw [List.filter_append, hfront, hback, List.nil_append]

/-- Read page by page, everything behind the cursor comes once and in order. -/
theorem read_all_cut {n : Nat} (hsorted : xs.Pairwise fun x y => key x < key y) (hlimit : 0 < limit)
    (hn : (behind key xs cursor).length < n) : read_all key (cut key xs limit) n cursor = some (behind key xs cursor) := by
  induction n generalizing cursor with
  | zero => omega
  | succ n ih =>
    rw [read_all]
    by_cases hmore : limit < (behind key xs cursor).length
    · have hne : (behind key xs cursor).take limit ≠ [] := by
        rw [← List.length_pos_iff, List.length_take]
        omega
      obtain ⟨x, hx⟩ := Option.ne_none_iff_exists'.mp (mt List.getLast?_eq_none_iff.mp hne)
      have hrest := behind_last hsorted hx
      have hshorter : (behind key xs (key x)).length < n := by
        rw [hrest, List.length_drop]
        omega
      simp only [cut, hmore, decide_true, if_true, hx]
      rw [ih hshorter, hrest, Option.map_some, List.take_append_drop]
    · simp only [cut, hmore, decide_false]
      rw [List.take_of_length_le (by omega)]
      rfl

end

end Paging

namespace Fetch

/-- What is asked for under a key: the latest request, the requests not yet answered, and
the answer that came last. -/
structure View (ι ρ : Type) where
  latest : Option ι := none
  outstanding : List ι := []
  shown : Option (ι × ρ) := none
  deriving DecidableEq

section

variable {ι ρ κ : Type} (key : ι → κ)

def View.ask (v : View ι ρ) (i : ι) : View ι ρ :=
  { v with latest := some i, outstanding := v.outstanding ++ [i] }

/-- With all answers in, the one shown has the key of the latest request. -/
def View.Settled (v : View ι ρ) : Prop :=
  v.outstanding = [] → v.shown.map (fun a => key a.1) = v.latest.map key

theorem View.ask_settled (v : View ι ρ) (i : ι) : (v.ask i).Settled key := by
  intro hnone
  rw [View.ask] at hnone
  exact absurd hnone (List.append_ne_nil_of_right_ne_nil _ (List.cons_ne_nil i []))

variable [DecidableEq ι]

/-- The answer to any of the outstanding requests arrives. -/
def View.answer (v : View ι ρ) (i : ι) (r : ρ) : Option (View ι ρ) :=
  if i ∈ v.outstanding then some { v with outstanding := v.outstanding.erase i, shown := some (i, r) } else none

/-- The answer that comes last is to a request for the key of the latest one. -/
def View.LastInTime (v : View ι ρ) (i : ι) : Prop :=
  v.outstanding.erase i = [] → some (key i) = v.latest.map key

instance [DecidableEq κ] (v : View ι ρ) (i : ι) : Decidable (v.LastInTime key i) :=
  inferInstanceAs (Decidable (_ → _))

variable {key}

theorem View.answer_eq {v v' : View ι ρ} {i : ι} {r : ρ} (hstep : v.answer i r = some v') :
    i ∈ v.outstanding ∧ { v with outstanding := v.outstanding.erase i, shown := some (i, r) } = v' := by
  rw [View.answer] at hstep
  exact (Option.ite_none_right_eq_some.mp hstep).imp_right Option.some.inj

/-- An answer leaves the view settled exactly if it is in time. -/
theorem View.answer_settled_iff {v v' : View ι ρ} {i : ι} {r : ρ} (hstep : v.answer i r = some v') :
    v'.Settled key ↔ v.LastInTime key i := by
  obtain ⟨-, rfl⟩ := View.answer_eq hstep
  rfl

end

end Fetch
