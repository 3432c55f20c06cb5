import Mathlib.Data.List.Nodup
import Mathlib.Data.Finset.Card
import ReverseSlop.Hyperion.Decompiler.Ir
import ReverseSlop.Library.IterativeDominators

namespace hype

namespace SSABuilder

/-- The block at the entry address, or the first one. -/
def entry_block (func : PcodeFunc) : Nat := (func.blocks.findIdx? fun blk => blk.addr = func.entry).getD 0

def succs (func : PcodeFunc) (b : Nat) : List Nat := (func.blocks[b]?.map PcodeBlock.succs).getD []

def preds (func : PcodeFunc) (b : Nat) : List Nat := (func.blocks[b]?.map PcodeBlock.preds).getD []

structure dfs_t where
  visited : List Nat := []
  postorder : List Nat := []

/-- The recursion of `visit`; it goes no deeper than there are blocks. -/
def visit (func : PcodeFunc) : Nat → Nat → dfs_t → dfs_t
  | 0, _, s => s
  | fuel + 1, block, s =>
    if block ≥ func.blocks.length ∨ block ∈ s.visited then s
    else
      let s' := (succs func block).foldl (fun s successor => visit func fuel successor s)
        { s with visited := block :: s.visited }
      { s' with postorder := s'.postorder ++ [block] }

def compute_reverse_postorder (func : PcodeFunc) : List Nat :=
  (visit func (func.blocks.length + 1) (entry_block func) {}).postorder.reverse

/-- The place of a block in the order, in which each block stands once. -/
def rpo_index (rpo : List Nat) (b : Nat) : Int := if b ∈ rpo then rpo.idxOf b else -1

/-- A walk up to a block that is not later than `second`; `none` is a walk that has not ended, `some none` is -1. -/
def climb (rpo : List Nat) (idom : Nat → Option Nat) (second : Nat) : Nat → Nat → Option (Option Nat)
  | 0, _ => none
  | fuel + 1, first =>
    if rpo_index rpo second < rpo_index rpo first then
      match idom first with
      | none => some none
      | some up => climb rpo idom second fuel up
    else some (some first)

def intersect (n : Nat) (rpo : List Nat) (idom : Nat → Option Nat) : Nat → Nat → Nat → Option (Option Nat)
  | 0, _, _ => some none
  | guard + 1, first, second =>
    if first = second then some (some first)
    else if first ≥ n ∨ second ≥ n then some none
    else if rpo_index rpo first < 0 ∨ rpo_index rpo second < 0 then some none
    else
      (climb rpo idom second (n + 1) first).bind fun up =>
        match up with
        | none => some none
        | some first' =>
          (climb rpo idom first' (n + 1) second).bind fun up =>
            match up with
            | none => some none
            | some second' => intersect n rpo idom guard first' second'

/-- The loop over the predecessors of a block. -/
def meet_pred (func : PcodeFunc) (rpo : List Nat) (idom : Nat → Option Nat) (found : Option Nat) (pred : Nat) :
    Option (Option Nat) :=
  if pred ≥ func.blocks.length ∨ idom pred = none then some found
  else
    match found with
    | none => some (some pred)
    | some d => intersect func.blocks.length rpo idom (func.blocks.length * 2 + 8) pred d

/-- What a sweep finds for one block. -/
def new_idom (func : PcodeFunc) (rpo : List Nat) (idom : Nat → Option Nat) (block : Nat) : Option (Option Nat) :=
  (preds func block).foldlM (meet_pred func rpo idom) none

/-- The sweeps until one changes nothing; `none` is a loop that has not ended after `fuel` sweeps. -/
def compute_dominators (func : PcodeFunc) (fuel : Nat) : Option (Nat → Option Nat) :=
  Dominance.iterate (new_idom func (compute_reverse_postorder func)) (compute_reverse_postorder func) fuel
    (Dominance.planted (entry_block func))

def dom_children (func : PcodeFunc) (idom : Nat → Option Nat) (b : Nat) : List Nat :=
  (compute_reverse_postorder func).filter fun c => c ≠ entry_block func ∧ idom c = some b

end SSABuilder

namespace SSABuilder

/-- The edges of the flow graph. -/
def Edge (func : PcodeFunc) (a b : Nat) : Prop := b ∈ succs func a ∧ b < func.blocks.length

/-- The predecessors of a block are the blocks that it is a successor of, and there is a block. -/
structure Linked (func : PcodeFunc) : Prop where
  nonempty : func.blocks ≠ []
  linked : ∀ a b, b < func.blocks.length → (a ∈ preds func b ↔ b ∈ succs func a)

theorem Linked.of_bounded {func : PcodeFunc} (hne : func.blocks ≠ [])
    (hpreds : ∀ b < func.blocks.length, ∀ a ∈ preds func b, a < func.blocks.length)
    (hlinked : ∀ a < func.blocks.length, ∀ b < func.blocks.length, a ∈ preds func b ↔ b ∈ succs func a) :
    Linked func := by
  refine ⟨hne, fun a b hb => ?_⟩
  by_cases ha : a < func.blocks.length
  · exact hlinked a ha b hb
  · refine iff_of_false (fun hmem => ha (hpreds b hb a hmem)) fun hmem => ?_
    rw [succs, List.getElem?_eq_none (Nat.not_lt.mp ha)] at hmem
    exact List.not_mem_nil hmem

theorem sign_func_linked : Linked sign_func := .of_bounded (by decide) (by decide) (by decide)

theorem succs_nil {func : PcodeFunc} {b : Nat} (hb : func.blocks.length ≤ b) : succs func b = [] := by
  rw [succs, List.getElem?_eq_none hb]
  rfl

theorem entry_block_lt {func : PcodeFunc} (hne : func.blocks ≠ []) : entry_block func < func.blocks.length := by
  rw [entry_block]
  cases hfind : func.blocks.findIdx? fun blk => blk.addr = func.entry with
  | none => exact List.length_pos_iff.mpr hne
  | some i => exact (List.findIdx?_eq_some_iff_getElem.mp hfind).1

section Order

variable {func : PcodeFunc}

/-- What the search from some blocks adds to the order. -/
structure Explored (func : PcodeFunc) (roots : List Nat) (s s' : dfs_t) (added : List Nat) : Prop where
  postorder : s'.postorder = s.postorder ++ added
  visited : ∀ x, x ∈ s'.visited ↔ x ∈ s.visited ∨ x ∈ added
  distinct : s'.visited.Nodup
  bounded : ∀ x ∈ s'.visited, x < func.blocks.length
  grows : s.visited.length ≤ s'.visited.length
  nodup : added.Nodup
  fresh : ∀ x ∈ added, x ∉ s.visited
  closed : ∀ x ∈ added, ∀ y, Edge func x y → y ∈ s'.visited
  found : ∀ r ∈ roots, r < func.blocks.length → r ∈ s'.visited
  later : ∀ front x back, added = front ++ x :: back → x ∈ roots ∨ ∃ y ∈ back, Edge func y x
  reached : ∀ x ∈ added, ∃ r ∈ roots, Relation.ReflTransGen (Edge func) r x

theorem Explored.none {s : dfs_t} {roots : List Nat} (hdistinct : s.visited.Nodup)
    (hbounded : ∀ x ∈ s.visited, x < func.blocks.length)
    (hroots : ∀ r ∈ roots, r < func.blocks.length → r ∈ s.visited) : Explored func roots s s [] := by
  refine ⟨(List.append_nil _).symm, ?_, hdistinct, hbounded, Nat.le_refl _, List.nodup_nil, ?_, ?_, hroots, ?_, ?_⟩
  · simp
  · simp
  · simp
  · intro front x back h
    exact absurd h.symm (by simp)
  · simp

theorem Explored.append {roots roots' : List Nat} {s s' s'' : dfs_t} {added added' : List Nat}
    (h : Explored func roots s s' added) (h' : Explored func roots' s' s'' added') :
    Explored func (roots ++ roots') s s'' (added ++ added') := by
  refine ⟨?_, ?_, h'.distinct, h'.bounded, Nat.le_trans h.grows h'.grows, ?_, ?_, ?_, ?_, ?_, ?_⟩
  · rw [h'.postorder, h.postorder, List.append_assoc]
  · intro x
    rw [h'.visited, h.visited, List.mem_append, or_assoc]
  · refine List.nodup_append.mpr ⟨h.nodup, h'.nodup, ?_⟩
    intro x hx y hy heq
    exact h'.fresh y hy ((h.visited y).mpr (Or.inr (heq ▸ hx)))
  · intro x hx hmem
    obtain hx | hx := List.mem_append.mp hx
    · exact h.fresh x hx hmem
    · exact h'.fresh x hx ((h.visited x).mpr (Or.inl hmem))
  · intro x hx y hedge
    obtain hx | hx := List.mem_append.mp hx
    · exact (h'.visited y).mpr (Or.inl (h.closed x hx y hedge))
    · exact h'.closed x hx y hedge
  · intro r hr hlt
    obtain hr | hr := List.mem_append.mp hr
    · exact (h'.visited r).mpr (Or.inl (h.found r hr hlt))
    · exact h'.found r hr hlt
  · intro front x back hsplit
    obtain ⟨tail, hfront, hadded⟩ | ⟨tail, hadded, hfront⟩ := List.append_eq_append_iff.mp hsplit
    · obtain hroot | ⟨y, hy, hedge⟩ := h'.later tail x back hadded
      · exact Or.inl (List.mem_append_right _ hroot)
      · exact Or.inr ⟨y, hy, hedge⟩
    · cases tail with
      | nil =>
        obtain hroot | ⟨y, hy, hedge⟩ := h'.later [] x back hfront.symm
        · exact Or.inl (List.mem_append_right _ hroot)
        · exact Or.inr ⟨y, hy, hedge⟩
      | cons z tail =>
        rw [List.cons_append, List.cons.injEq] at hfront
        rw [← hfront.1] at hadded
        obtain hroot | ⟨y, hy, hedge⟩ := h.later front x tail hadded
        · exact Or.inl (List.mem_append_left _ hroot)
        · refine Or.inr ⟨y, ?_, hedge⟩
          rw [hfront.2]
          exact List.mem_append_left _ hy
  · intro x hx
    obtain hx | hx := List.mem_append.mp hx
    · obtain ⟨r, hr, hpath⟩ := h.reached x hx
      exact ⟨r, List.mem_append_left _ hr, hpath⟩
    · obtain ⟨r, hr, hpath⟩ := h'.reached x hx
      exact ⟨r, List.mem_append_right _ hr, hpath⟩

/-- A block is finished behind everything that was found from its successors. -/
theorem Explored.finish {s s' : dfs_t} {block : Nat} {added : List Nat} (hnew : block ∉ s.visited)
    (h : Explored func (succs func block) { s with visited := block :: s.visited } s' added) :
    Explored func [block] s { s' with postorder := s'.postorder ++ [block] } (added ++ [block]) := by
  have hself : block ∈ s'.visited := (h.visited block).mpr (Or.inl List.mem_cons_self)
  have hsucc : ∀ x ∈ added, ∃ r, Edge func block r ∧ Relation.ReflTransGen (Edge func) r x := by
    intro x hx
    obtain ⟨r, hr, hpath⟩ := h.reached x hx
    refine ⟨r, ⟨hr, ?_⟩, hpath⟩
    obtain heq | ⟨z, hedge, -⟩ := Relation.ReflTransGen.cases_head hpath
    · rw [heq]
      exact h.bounded x ((h.visited x).mpr (Or.inr hx))
    · refine Nat.lt_of_not_le fun hle => ?_
      have hmem := hedge.1
      rw [succs_nil hle] at hmem
      exact absurd hmem List.not_mem_nil
  refine ⟨?_, ?_, h.distinct, h.bounded, ?_, ?_, ?_, ?_, ?_, ?_, ?_⟩
  · show s'.postorder ++ [block] = _
    rw [h.postorder, List.append_assoc]
  · intro x
    rw [h.visited, List.mem_cons, List.mem_append, List.mem_singleton]
    tauto
  · exact Nat.le_trans (Nat.le_succ _) h.grows
  · refine List.nodup_append.mpr ⟨h.nodup, List.nodup_singleton _, ?_⟩
    intro x hx y hy heq
    rw [List.mem_singleton] at hy
    rw [heq, hy] at hx
    exact h.fresh block hx List.mem_cons_self
  · intro x hx hmem
    obtain hx | hx := List.mem_append.mp hx
    · exact h.fresh x hx (List.mem_cons_of_mem _ hmem)
    · rw [List.mem_singleton] at hx
      exact hnew (hx ▸ hmem)
  · intro x hx y hedge
    obtain hx | hx := List.mem_append.mp hx
    · exact h.closed x hx y hedge
    · rw [List.mem_singleton] at hx
      rw [hx] at hedge
      exact h.found y hedge.1 hedge.2
  · intro r hr _
    rw [List.mem_singleton.mp hr]
    exact hself
  · intro front x back hsplit
    obtain ⟨tail, hfront, hlast⟩ | ⟨tail, hadded, hback⟩ := List.append_eq_append_iff.mp hsplit
    · cases tail with
      | nil =>
        rw [List.nil_append, List.cons.injEq] at hlast
        exact Or.inl (List.mem_singleton.mpr hlast.1.symm)
      | cons z tail => exact absurd (congrArg List.length hlast) (by simp)
    · cases tail with
      | nil =>
        rw [List.nil_append, List.cons.injEq] at hback
        exact Or.inl (List.mem_singleton.mpr hback.1)
      | cons z tail =>
        rw [List.cons_append, List.cons.injEq] at hback
        rw [← hback.1] at hadded
        refine Or.inr ?_
        rw [hback.2]
        obtain hroot | ⟨y, hy, hedge⟩ := h.later front x tail hadded
        · have hx : x ∈ added := hadded ▸ List.mem_append_right _ List.mem_cons_self
          have hbound := h.bounded x ((h.visited x).mpr (Or.inr hx))
          exact ⟨block, List.mem_append_right _ (List.mem_singleton_self _), hroot, hbound⟩
        · exact ⟨y, List.mem_append_left _ hy, hedge⟩
  · intro x hx
    refine ⟨block, List.mem_singleton_self _, ?_⟩
    obtain hx | hx := List.mem_append.mp hx
    · obtain ⟨r, hedge, hpath⟩ := hsucc x hx
      exact Relation.ReflTransGen.head hedge hpath
    · rw [List.mem_singleton] at hx
      rw [hx]

theorem length_le {visited : List Nat} {n : Nat} (hdistinct : visited.Nodup) (hbounded : ∀ x ∈ visited, x < n) :
    visited.length ≤ n := by
  have hsub : visited.toFinset ⊆ Finset.range n := by
    intro x hx
    exact Finset.mem_range.mpr (hbounded x (List.mem_toFinset.mp hx))
  have hcard := Finset.card_le_card hsub
  rw [List.toFinset_card_of_nodup hdistinct, Finset.card_range] at hcard
  exact hcard

theorem visit_explored {fuel : Nat} (block : Nat) {s : dfs_t} (hdistinct : s.visited.Nodup)
    (hbounded : ∀ x ∈ s.visited, x < func.blocks.length) (hfuel : func.blocks.length < fuel + s.visited.length) :
    ∃ added, Explored func [block] s (visit func fuel block s) added := by
  induction fuel generalizing block s with
  | zero =>
    have hle := length_le hdistinct hbounded
    omega
  | succ fuel ih =>
    rw [visit]
    by_cases hskip : block ≥ func.blocks.length ∨ block ∈ s.visited
    · rw [if_pos hskip]
      refine ⟨[], .none hdistinct hbounded ?_⟩
      intro r hr hlt
      rw [List.mem_singleton] at hr
      rw [hr] at hlt ⊢
      obtain hge | hmem := hskip
      · exact absurd hlt (Nat.not_lt.mpr hge)
      · exact hmem
    · rw [if_neg hskip]
      obtain ⟨hlt, hnew⟩ := not_or.mp hskip
      have hfold : ∀ (roots : List Nat) (t : dfs_t), t.visited.Nodup → (∀ x ∈ t.visited, x < func.blocks.length) →
          s.visited.length < t.visited.length →
          ∃ added, Explored func roots t (roots.foldl (fun s successor => visit func fuel successor s) t) added := by
        intro roots
        induction roots with
        | nil =>
          intro t hdistinct hbounded _
          exact ⟨[], .none hdistinct hbounded fun r hr => absurd hr List.not_mem_nil⟩
        | cons r roots ihroots =>
          intro t hdistinct hbounded hlength
          obtain ⟨added, hr⟩ := ih r hdistinct hbounded (by omega)
          obtain ⟨added', hrest⟩ := ihroots _ hr.distinct hr.bounded (Nat.lt_of_lt_of_le hlength hr.grows)
          exact ⟨added ++ added', hr.append hrest⟩
      obtain ⟨added, hadded⟩ := hfold (succs func block) { s with visited := block :: s.visited }
        (List.nodup_cons.mpr ⟨hnew, hdistinct⟩)
        (fun x hx => (List.mem_cons.mp hx).elim (fun h => h ▸ Nat.lt_of_not_le hlt) (hbounded x))
        (Nat.lt_succ_self _)
      exact ⟨added ++ [block], hadded.finish hnew⟩

variable (func) in
/-- The order has the reachable blocks, the entry first, and each other one behind a predecessor. -/
abbrev Rpo (rpo : List Nat) : Prop := Dominance.Order (Edge func) (entry_block func) rpo

theorem compute_reverse_postorder_spec (hne : func.blocks ≠ []) : Rpo func (compute_reverse_postorder func) := by
  have hentry := entry_block_lt hne
  obtain ⟨added, hadded⟩ : ∃ added, Explored func [entry_block func] {}
      (visit func (func.blocks.length + 1) (entry_block func) {}) added :=
    visit_explored (entry_block func) List.nodup_nil (fun x hx => absurd hx List.not_mem_nil) (Nat.lt_succ_self _)
  have hrpo : compute_reverse_postorder func = added.reverse := by
    rw [compute_reverse_postorder, hadded.postorder]
    rfl
  have hvisited : ∀ x, x ∈ (visit func (func.blocks.length + 1) (entry_block func) {}).visited ↔ x ∈ added := by
    intro x
    rw [hadded.visited]
    exact or_iff_right List.not_mem_nil
  rw [hrpo]
  apply Dominance.Order.of_postorder hadded.nodup
  · exact (hvisited _).mp (hadded.found _ (List.mem_singleton_self _) hentry)
  · intro x hx y hedge
    exact (hvisited y).mp (hadded.closed x hx y hedge)
  · intro x hx
    obtain ⟨r, hr, hpath⟩ := hadded.reached x hx
    rw [List.mem_singleton.mp hr] at hpath
    exact hpath
  · intro front x back hsplit
    exact (hadded.later front x back hsplit).imp_left List.mem_singleton.mp

end Order

section Tree

variable {func : PcodeFunc} {rpo : List Nat} (hrpo : Rpo func rpo)

include hrpo

theorem Rpo.bounded (hne : func.blocks ≠ []) {b : Nat} (hb : b ∈ rpo) : b < func.blocks.length := by
  have hreach := (hrpo.mem b).mp hb
  rw [Dominance.reachable_iff] at hreach
  obtain heq | ⟨a, -, hedge⟩ := Relation.ReflTransGen.cases_tail hreach
  · rw [heq]
    exact entry_block_lt hne
  · exact hedge.2

theorem Rpo.listed (hlinked : Linked func) : Dominance.Listed (Edge func) (preds func) rpo := by
  intro b hb a _
  have hlt := Rpo.bounded hrpo hlinked.nonempty hb
  rw [hlinked.linked a b hlt]
  exact (and_iff_left hlt).symm

section

variable {idom : Nat → Option Nat} (hplaced : Dominance.Placed (entry_block func) rpo idom)

include hplaced

theorem climb_spec {second : Nat} (hsecond : second ∈ rpo) {fuel first : Nat} (hfirst : (idom first).isSome = true)
    (hfuel : rpo.idxOf first < fuel) :
    ∃ first', climb rpo idom second fuel first = some (some first') ∧ (idom first').isSome = true ∧
      rpo.idxOf first' ≤ rpo.idxOf second ∧
      (first' = first ∨ rpo.idxOf first' < rpo.idxOf first ∧ rpo.idxOf second < rpo.idxOf first) ∧
      ∀ d, Dominance.Chain (entry_block func) (Dominance.above (entry_block func) idom) first' d ∧
        Dominance.Chain (entry_block func) (Dominance.above (entry_block func) idom) second d ↔
          Dominance.Chain (entry_block func) (Dominance.above (entry_block func) idom) first d ∧
          Dominance.Chain (entry_block func) (Dominance.above (entry_block func) idom) second d := by
  induction fuel generalizing first with
  | zero => exact absurd hfuel (Nat.not_lt_zero _)
  | succ fuel ih =>
    obtain ⟨up, hup⟩ := Option.isSome_iff_exists.mp hfirst
    obtain ⟨hmem, hsome, hless⟩ := hplaced.up first up hup
    rw [climb, rpo_index, rpo_index, if_pos hsecond, if_pos hmem]
    by_cases hlt : rpo.idxOf second < rpo.idxOf first
    · have hne : first ≠ entry_block func := by
        intro heq
        rw [heq, hrpo.idxOf_root] at hlt
        exact absurd hlt (Nat.not_lt_zero _)
      have hstep := hless hne
      obtain ⟨first', hclimb, hdefined, hle, hcase, hcommon⟩ := ih hsome (by omega)
      rw [if_pos (Int.ofNat_lt.mpr hlt), hup]
      refine ⟨first', hclimb, hdefined, hle, Or.inr ⟨?_, hlt⟩, ?_⟩
      · obtain heq | hcase := hcase
        · rw [heq]
          exact hstep
        · omega
      · intro d
        rw [hcommon d, ← Dominance.common_up (Dominance.Placed.rooted hrpo hplaced) hlt hne, Dominance.above_of_some hup]
    · rw [if_neg (fun h => hlt (Int.ofNat_lt.mp h))]
      exact ⟨first, rfl, hfirst, Nat.not_lt.mp hlt, Or.inl rfl, fun d => Iff.rfl⟩

/-- The two walks end in the last block that both chains have. -/
theorem intersect_spec (hne : func.blocks ≠ []) {guard first second : Nat} (hfirst : (idom first).isSome = true)
    (hsecond : (idom second).isSome = true) (hguard : rpo.idxOf first + rpo.idxOf second < guard) :
    ∃ m, intersect func.blocks.length rpo idom guard first second = some (some m) ∧ (idom m).isSome = true ∧
      ∀ d, Dominance.Chain (entry_block func) (Dominance.above (entry_block func) idom) m d ↔
        Dominance.Chain (entry_block func) (Dominance.above (entry_block func) idom) first d ∧
        Dominance.Chain (entry_block func) (Dominance.above (entry_block func) idom) second d := by
  induction guard generalizing first second with
  | zero => exact absurd hguard (Nat.not_lt_zero _)
  | succ guard ih =>
    have hmem : ∀ b, (idom b).isSome = true → b ∈ rpo := by
      intro b hb
      obtain ⟨d, hd⟩ := Option.isSome_iff_exists.mp hb
      exact (hplaced.up b d hd).1
    have hlength : ∀ b, b ∈ rpo → rpo.idxOf b < func.blocks.length + 1 := by
      intro b hb
      have hle := length_le hrpo.nodup fun x hx => hrpo.bounded hne hx
      have hlt := List.idxOf_lt_length_iff.mpr hb
      omega
    rw [intersect]
    by_cases heq : first = second
    · rw [if_pos heq]
      refine ⟨first, rfl, hfirst, fun d => ?_⟩
      rw [heq]
      exact (and_self_iff).symm
    have hf := hmem first hfirst
    have hs := hmem second hsecond
    have hdiffer : rpo.idxOf first ≠ rpo.idxOf second := fun h => heq ((List.idxOf_inj hf).mp h)
    obtain ⟨first', hclimb, hdefined, hle, hcase, hcommon⟩ :=
      climb_spec hrpo hplaced hs hfirst (hlength first hf)
    obtain ⟨second', hclimb', hdefined', hle', hcase', hcommon'⟩ :=
      climb_spec hrpo hplaced (hmem first' hdefined) hsecond (hlength second hs)
    -- One of the two walks has gone up.
    have hsmaller : rpo.idxOf first' + rpo.idxOf second' < guard := by
      have hfirst' : rpo.idxOf first' = rpo.idxOf first ∨ rpo.idxOf first' < rpo.idxOf first :=
        hcase.imp (congrArg rpo.idxOf) And.left
      have hsecond' : rpo.idxOf second' = rpo.idxOf second ∨ rpo.idxOf second' < rpo.idxOf second :=
        hcase'.imp (congrArg rpo.idxOf) And.left
      omega
    obtain ⟨m, hm, hmsome, hchain⟩ := ih hdefined hdefined' hsmaller
    have hindex : ∀ b, b ∈ rpo → ¬ rpo_index rpo b < 0 := by
      intro b hb
      rw [rpo_index, if_pos hb]
      omega
    rw [if_neg heq,
      if_neg (not_or.mpr ⟨Nat.not_le.mpr (hrpo.bounded hne hf), Nat.not_le.mpr (hrpo.bounded hne hs)⟩),
      if_neg (not_or.mpr ⟨hindex first hf, hindex second hs⟩), hclimb]
    simp only [Option.bind_some, hclimb']
    refine ⟨m, hm, hmsome, fun d => ?_⟩
    rw [hchain d, and_comm, hcommon' d, and_comm, hcommon d]

/-- The loop over the predecessors of a block takes up those that have a dominator. -/
theorem meet_pred_meets (hne : func.blocks ≠ []) :
    Dominance.Meets (entry_block func) idom (meet_pred func rpo idom) := by
  have hbounded : ∀ b, (idom b).isSome = true → rpo.idxOf b < func.blocks.length ∧ b < func.blocks.length := by
    intro b hb
    obtain ⟨d, hd⟩ := Option.isSome_iff_exists.mp hb
    have hmem := (hplaced.up b d hd).1
    have hle := length_le hrpo.nodup fun x hx => Rpo.bounded hrpo hne hx
    exact ⟨Nat.lt_of_lt_of_le (List.idxOf_lt_length_iff.mpr hmem) hle, Rpo.bounded hrpo hne hmem⟩
  have htaken : ∀ p, (idom p).isSome = true → ¬ (p ≥ func.blocks.length ∨ idom p = none) := by
    intro p hp h
    obtain hge | hnone := h
    · exact absurd (hbounded p hp).2 (Nat.not_lt.mpr hge)
    · rw [hnone] at hp
      cases hp
  refine ⟨?_, ?_, ?_⟩
  · intro found p hp
    exact if_pos (Or.inr hp)
  · intro p hp
    rw [meet_pred, if_neg (htaken p hp)]
  · intro d p hd hp
    have hguard : rpo.idxOf p + rpo.idxOf d < func.blocks.length * 2 + 8 := by
      have := (hbounded p hp).1
      have := (hbounded d hd).1
      omega
    obtain ⟨m, hm, hmsome, hcommon⟩ := intersect_spec hrpo hplaced hne hp hd hguard
    rw [meet_pred, if_neg (htaken p hp)]
    exact ⟨m, hm, hmsome, fun e => (hcommon e).trans and_comm⟩

end

theorem new_idom_finds (hne : func.blocks ≠ []) :
    Dominance.Finds (entry_block func) (preds func) rpo (new_idom func rpo) :=
  fun _ hplaced b _ => (meet_pred_meets hrpo hplaced hne).fold (preds func b)

end Tree

section Exact

variable {func : PcodeFunc}

abbrev Settled (func : PcodeFunc) (rpo : List Nat) (idom : Nat → Option Nat) : Prop :=
  Dominance.Settled (Edge func) (entry_block func) (preds func) rpo idom

theorem compute_dominators_settled (hlinked : Linked func) {fuel : Nat}
    (hfuel : func.blocks.length * func.blocks.length + 2 ≤ fuel) :
    ∃ idom, compute_dominators func fuel = some idom ∧ Settled func (compute_reverse_postorder func) idom := by
  have hrpo := compute_reverse_postorder_spec hlinked.nonempty
  have hle := length_le hrpo.nodup fun x hx => Rpo.bounded hrpo hlinked.nonempty hx
  have hsquare := Nat.mul_le_mul hle hle
  exact Dominance.iterate_planted hrpo (Rpo.listed hrpo hlinked) (new_idom_finds hrpo hlinked.nonempty) (by omega)

/-- The loop of the source ends, and it ends with the immediate dominators: -1 for the blocks that cannot be reached,
and for the others the last block that every way to them takes. -/
theorem compute_dominators_exact (hlinked : Linked func) {fuel : Nat}
    (hfuel : func.blocks.length * func.blocks.length + 2 ≤ fuel) :
    ∃ idom, compute_dominators func fuel = some idom ∧ idom (entry_block func) = some (entry_block func) ∧
      (∀ b, idom b = none ↔ ¬ Dominance.Reachable (Edge func) (entry_block func) b) ∧
      ∀ b d, Dominance.Reachable (Edge func) (entry_block func) b → b ≠ entry_block func →
        (idom b = some d ↔ Dominance.Immediate (Edge func) (entry_block func) d b) := by
  obtain ⟨idom, hidom, hsettled⟩ := compute_dominators_settled hlinked hfuel
  have hrpo := compute_reverse_postorder_spec hlinked.nonempty
  refine ⟨idom, hidom, hsettled.placed.start, hsettled.none_iff hrpo, ?_⟩
  intro b d hb hne
  exact hsettled.some_iff hrpo (Rpo.listed hrpo hlinked) hb hne

theorem sign_func_dominators :
    ∃ idom, compute_dominators sign_func 18 = some idom ∧
      idom (entry_block sign_func) = some (entry_block sign_func) ∧
      (∀ b, idom b = none ↔ ¬ Dominance.Reachable (Edge sign_func) (entry_block sign_func) b) ∧
      ∀ b d, Dominance.Reachable (Edge sign_func) (entry_block sign_func) b → b ≠ entry_block sign_func →
        (idom b = some d ↔ Dominance.Immediate (Edge sign_func) (entry_block sign_func) d b) :=
  compute_dominators_exact sign_func_linked (by decide)

end Exact

end SSABuilder

end hype
