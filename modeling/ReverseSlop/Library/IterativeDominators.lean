import ReverseSlop.Library.Dominance

namespace Dominance

section Order

variable {α : Type} [DecidableEq α] (edge : α → α → Prop) (root : α) (preds : α → List α)

/-- An order of the nodes that can be reached, the root first and each other one behind a predecessor. -/
structure Order (rpo : List α) : Prop where
  nodup : rpo.Nodup
  head : ∃ rest, rpo = root :: rest
  mem : ∀ b, b ∈ rpo ↔ Reachable edge root b
  earlier : ∀ b ∈ rpo, b ≠ root → ∃ a ∈ rpo, edge a b ∧ rpo.idxOf a < rpo.idxOf b

/-- Lists of predecessors that have the edges between nodes of an order. -/
def Listed (rpo : List α) : Prop := ∀ b ∈ rpo, ∀ a ∈ rpo, a ∈ preds b ↔ edge a b

/-- A tree under way: nodes that have a parent, all below the root. -/
structure Placed (rpo : List α) (idom : α → Option α) : Prop where
  start : idom root = some root
  up : ∀ b d, idom b = some d → b ∈ rpo ∧ (idom d).isSome = true ∧ (b ≠ root → rpo.idxOf d < rpo.idxOf b)

/-- Nodes without a parent hang below the root, too. -/
def above (idom : α → Option α) (b : α) : α := (idom b).getD root

variable {edge root preds} {rpo : List α} (hrpo : Order edge root rpo)

omit [DecidableEq α] in
theorem above_of_some {idom : α → Option α} {b d : α} (h : idom b = some d) : above root idom b = d := by
  rw [above, h]
  rfl

/-- A postorder, in which each node but the root stands before a predecessor, is an order when it is read backwards. -/
theorem Order.of_postorder {post : List α} (hnodup : post.Nodup) (hroot : root ∈ post)
    (hclosed : ∀ a ∈ post, ∀ b, edge a b → b ∈ post) (hreached : ∀ b ∈ post, Relation.ReflTransGen edge root b)
    (hlater : ∀ front b back, post = front ++ b :: back → b = root ∨ ∃ a ∈ back, edge a b) :
    Order edge root post.reverse := by
  refine ⟨List.nodup_reverse.mpr hnodup, ?_, ?_, ?_⟩
  · obtain ⟨front, last, rfl⟩ := List.eq_nil_or_concat' post |>.resolve_left (List.ne_nil_of_mem hroot)
    obtain heq | ⟨a, ha, -⟩ := hlater front last [] rfl
    · exact ⟨front.reverse, by rw [List.reverse_append, heq]; rfl⟩
    · exact absurd ha List.not_mem_nil
  · intro b
    rw [List.mem_reverse, reachable_iff]
    constructor
    · exact hreached b
    · intro hpath
      induction hpath with
      | refl => exact hroot
      | tail _ hedge ih => exact hclosed _ ih _ hedge
  · intro b hb hne
    obtain ⟨front, back, rfl⟩ := List.append_of_mem (List.mem_reverse.mp hb)
    obtain heq | ⟨a, ha, hedge⟩ := hlater front b back rfl
    · exact absurd heq hne
    · have hsplit : (front ++ b :: back).reverse = back.reverse ++ b :: front.reverse := by simp
      have hfresh : b ∉ back.reverse := by
        rw [List.mem_reverse]
        exact (List.nodup_cons.mp (List.nodup_append.mp hnodup).2.1).1
      rw [hsplit]
      refine ⟨a, List.mem_append_left _ (List.mem_reverse.mpr ha), hedge, ?_⟩
      rw [List.idxOf_append_of_mem (List.mem_reverse.mpr ha), List.idxOf_append_of_notMem hfresh]
      exact Nat.lt_of_lt_of_le (List.idxOf_lt_length_iff.mpr (List.mem_reverse.mpr ha)) (Nat.le_add_right _ _)

include hrpo

theorem Order.idxOf_root : rpo.idxOf root = 0 := by
  obtain ⟨rest, hhead⟩ := hrpo.head
  rw [hhead]
  exact List.idxOf_cons_self

theorem Order.idxOf_pos {b : α} (hb : b ≠ root) : 0 < rpo.idxOf b := by
  obtain ⟨rest, hhead⟩ := hrpo.head
  rw [hhead, List.idxOf_cons_ne _ hb.symm]
  exact Nat.succ_pos _

theorem Order.ordered (hlisted : Listed edge preds rpo) :
    Ordered edge root rpo.idxOf fun b => (preds b).filter (· ∈ rpo) := by
  refine ⟨?_, ?_⟩
  · intro b a hb
    rw [List.mem_filter, decide_eq_true_iff, hrpo.mem a]
    refine and_congr_left fun ha => ?_
    exact hlisted b ((hrpo.mem b).mpr hb) a ((hrpo.mem a).mpr ha)
  · intro b hb hne
    have hmem := (hrpo.mem b).mpr hb
    obtain ⟨a, ha, hedge, hlt⟩ := hrpo.earlier b hmem hne
    exact ⟨a, List.mem_filter.mpr ⟨(hlisted b hmem a ha).mpr hedge, decide_eq_true ha⟩, hlt⟩

theorem Placed.rooted {idom : α → Option α} (hplaced : Placed root rpo idom) :
    Rooted root rpo.idxOf (above root idom) := by
  intro b hb
  cases h : idom b with
  | none =>
    rw [above, h]
    show rpo.idxOf root < rpo.idxOf b
    rw [hrpo.idxOf_root]
    exact hrpo.idxOf_pos hb
  | some d =>
    rw [above_of_some h]
    exact (hplaced.up b d h).2.2 hb

end Order

section Sweeps

variable {α : Type} [DecidableEq α]

/-- One sweep over nodes, with whether it has changed anything. -/
def sweep (find : (α → Option α) → α → Option (Option α)) :
    List α → (α → Option α) → Option ((α → Option α) × Bool)
  | [], idom => some (idom, false)
  | b :: rest, idom =>
    (find idom b).bind fun found =>
      if found ≠ none ∧ idom b ≠ found then
        (sweep find rest (Function.update idom b found)).map fun r => (r.1, true)
      else sweep find rest idom

/-- Sweeps over all nodes but the root until one changes nothing; `none` is a loop that has not ended after `fuel`
sweeps. -/
def iterate (find : (α → Option α) → α → Option (Option α)) (rpo : List α) :
    Nat → (α → Option α) → Option (α → Option α)
  | 0, _ => none
  | fuel + 1, idom => (sweep find rpo.tail idom).bind fun r => if r.2 then iterate find rpo fuel r.1 else some r.1

/-- The tree at the start: the root alone. -/
def planted (root : α) : α → Option α := Function.update (fun _ => none) root (some root)

theorem planted_root (root : α) : planted root root = some root := Function.update_self _ _ _

theorem planted_of_ne {root b : α} (hne : b ≠ root) : planted root b = none := Function.update_of_ne hne _ _

section

variable {root : α} {preds : α → List α} {rpo : List α} {idom : α → Option α}

/-- A loop over predecessors that passes over those without a parent and meets the others. -/
structure Meets (root : α) (idom : α → Option α) (step : Option α → α → Option (Option α)) : Prop where
  skip : ∀ found p, idom p = none → step found p = some found
  first : ∀ p, (idom p).isSome = true → step none p = some (some p)
  meet : ∀ d p, (idom d).isSome = true → (idom p).isSome = true →
    ∃ m, step (some d) p = some (some m) ∧ (idom m).isSome = true ∧
      ∀ e, Chain root (above root idom) m e ↔
        Chain root (above root idom) d e ∧ Chain root (above root idom) p e

/-- What such a loop finds. -/
def Found (root : α) (idom : α → Option α) (ps : List α) (found : Option α) : Prop :=
  ((ps.filter fun p => (idom p).isSome) = [] ∧ found = none) ∨
    ∃ m, found = some m ∧ (idom m).isSome = true ∧
      Meet root (above root idom) (ps.filter fun p => (idom p).isSome) m

omit [DecidableEq α]

theorem Meets.fold_from {step : Option α → α → Option (Option α)} (hmeets : Meets root idom step) {nodes : List α}
    {d : α} (hd : (idom d).isSome = true) (hmeet : Meet root (above root idom) nodes d) (ps : List α) :
    ∃ m, ps.foldlM step (some d) = some (some m) ∧ (idom m).isSome = true ∧
      Meet root (above root idom) (nodes ++ ps.filter fun p => (idom p).isSome) m := by
  induction ps generalizing nodes d with
  | nil => exact ⟨d, rfl, hd, by rw [List.filter_nil, List.append_nil]; exact hmeet⟩
  | cons p ps ih =>
    rw [List.foldlM_cons]
    cases hp : idom p with
    | none =>
      rw [hmeets.skip _ p hp, List.filter_cons, if_neg (by simp [hp])]
      exact ih hd hmeet
    | some q =>
      have hsome : (idom p).isSome = true := by rw [hp]; rfl
      obtain ⟨m, hm, hmsome, hcommon⟩ := hmeets.meet d p hd hsome
      have hnext := ih hmsome (hmeet.snoc hcommon)
      rw [List.append_assoc] at hnext
      rw [hm, List.filter_cons, if_pos hsome]
      exact hnext

/-- The loop finds where the chains of the predecessors that have a parent meet. -/
theorem Meets.fold {step : Option α → α → Option (Option α)} (hmeets : Meets root idom step) (ps : List α) :
    ∃ found, ps.foldlM step none = some found ∧ Found root idom ps found := by
  induction ps with
  | nil => exact ⟨none, rfl, Or.inl ⟨rfl, rfl⟩⟩
  | cons p ps ih =>
    rw [List.foldlM_cons]
    simp only [Found] at ih ⊢
    cases hp : idom p with
    | none =>
      rw [hmeets.skip _ p hp, List.filter_cons, if_neg (by simp [hp])]
      exact ih
    | some q =>
      have hsome : (idom p).isSome = true := by rw [hp]; rfl
      obtain ⟨m, hm, hmsome, hmeet⟩ := hmeets.fold_from hsome (Meet.singleton p) ps
      rw [hmeets.first p hsome, List.filter_cons, if_pos hsome]
      exact ⟨some m, hm, Or.inr ⟨m, rfl, hmsome, hmeet⟩⟩

end

/-- A search that finds, in every tree under way, where the chains of a node's predecessors meet. -/
def Finds (root : α) (preds : α → List α) (rpo : List α) (find : (α → Option α) → α → Option (Option α)) : Prop :=
  ∀ idom, Placed root rpo idom → ∀ b ∈ rpo, ∃ found, find idom b = some found ∧ Found root idom (preds b) found

variable {find : (α → Option α) → α → Option (Option α)}

/-- A sweep goes on from a tree that differs at most at the first node. -/
theorem sweep_cons {node : α} {rest : List α} {idom : α → Option α} {r : (α → Option α) × Bool}
    (hsweep : sweep find (node :: rest) idom = some r) :
    ∃ found idom' r', find idom node = some found ∧ sweep find rest idom' = some r' ∧
      (∀ c, c ≠ node → idom' c = idom c) ∧ idom' node = (if found = none then idom node else found) ∧
      r.1 = r'.1 ∧ ((idom' node = idom node ∧ r.2 = r'.2) ∨ (idom' node ≠ idom node ∧ r.2 = true)) := by
  rw [sweep] at hsweep
  obtain ⟨found, hfound, hsweep⟩ := Option.bind_eq_some_iff.mp hsweep
  by_cases hmoves : found ≠ none ∧ idom node ≠ found
  · rw [if_pos hmoves] at hsweep
    obtain ⟨r', hr', hr⟩ := Option.map_eq_some_iff.mp hsweep
    refine ⟨found, _, r', hfound, hr', fun c hc => Function.update_of_ne hc _ _, ?_, by rw [← hr],
      Or.inr ⟨?_, by rw [← hr]⟩⟩
    · rw [Function.update_self, if_neg hmoves.1]
    · rw [Function.update_self]
      exact fun h => hmoves.2 h.symm
  · rw [if_neg hmoves] at hsweep
    refine ⟨found, idom, r, hfound, hsweep, fun _ _ => rfl, ?_, rfl, Or.inl ⟨rfl, rfl⟩⟩
    by_cases hnone : found = none
    · rw [if_pos hnone]
    · rw [if_neg hnone]
      exact by_contra fun h => hmoves ⟨hnone, h⟩

/-- What a sweep leaves behind: each node was placed on the tree that had been swept up to it. -/
theorem sweep_trace {l : List α} {idom : α → Option α} {r : (α → Option α) × Bool}
    (hsweep : sweep find l idom = some r) (hnodup : l.Nodup) :
    (∀ b, b ∉ l → r.1 b = idom b) ∧
    (∀ front b back, l = front ++ b :: back →
      ∃ found, find (fun c => if c ∈ front then r.1 c else idom c) b = some found ∧
        r.1 b = if found = none then idom b else found) ∧
    (r.2 = false → r.1 = idom) ∧ (r.2 = true → ∃ b ∈ l, r.1 b ≠ idom b) := by
  induction l generalizing idom r with
  | nil =>
    rw [sweep, Option.some.injEq] at hsweep
    rw [← hsweep]
    refine ⟨fun _ _ => rfl, fun front b back h => ?_, fun _ => rfl, fun h => ?_⟩
    · exact absurd h.symm (by simp)
    · cases h
  | cons node rest ih =>
    obtain ⟨hfresh, hrest⟩ := List.nodup_cons.mp hnodup
    obtain ⟨found, idom', r', hfound, hr', hsame, hnode, hr1, hchanged⟩ := sweep_cons hsweep
    obtain ⟨hout, htrace, hstill, hmoved⟩ := ih hr' hrest
    have hkept : r.1 node = idom' node := by
      rw [hr1]
      exact hout node hfresh
    refine ⟨?_, ?_, ?_, ?_⟩
    · intro b hb
      obtain ⟨hne, hb⟩ := not_or.mp (fun h => hb (List.mem_cons.mpr h))
      rw [hr1, hout b hb, hsame b hne]
    · intro front b back hsplit
      cases front with
      | nil =>
        rw [List.nil_append, List.cons.injEq] at hsplit
        rw [← hsplit.1]
        refine ⟨found, ?_, hkept.trans hnode⟩
        simp only [List.not_mem_nil, if_false]
        exact hfound
      | cons first front =>
        rw [List.cons_append, List.cons.injEq] at hsplit
        rw [← hsplit.1]
        obtain ⟨found', hfound', hb⟩ := htrace front b back hsplit.2
        have hbrest : b ∈ rest := hsplit.2 ▸ List.mem_append_right _ List.mem_cons_self
        have hbne : b ≠ node := fun heq => hfresh (heq ▸ hbrest)
        refine ⟨found', ?_, ?_⟩
        · rw [← hfound']
          congr 1
          funext c
          by_cases hc : c = node
          · rw [hc, if_pos List.mem_cons_self, hkept]
            split
            · rw [← hr1, hkept]
            · rfl
          · simp only [List.mem_cons, hc, false_or, hr1, hsame c hc]
        · rw [hr1, hb, hsame b hbne]
    · intro hstay
      obtain ⟨hsamenode, hflag⟩ | ⟨-, hflag⟩ := hchanged
      · rw [hr1, hstill (hflag.symm.trans hstay)]
        funext c
        by_cases hc : c = node
        · rw [hc]
          exact hsamenode
        · exact hsame c hc
      · rw [hflag] at hstay
        cases hstay
    · intro hmove
      obtain ⟨-, hflag⟩ | ⟨hdiffer, -⟩ := hchanged
      · obtain ⟨b, hb, hne⟩ := hmoved (hflag.symm.trans hmove)
        have hbne : b ≠ node := fun heq => hfresh (heq ▸ hb)
        refine ⟨b, List.mem_cons_of_mem _ hb, ?_⟩
        rw [hr1, ← hsame b hbne]
        exact hne
      · refine ⟨node, List.mem_cons_self, ?_⟩
        rw [hkept]
        exact hdiffer

variable {edge : α → α → Prop} {root : α} {preds : α → List α} {rpo : List α} (hrpo : Order edge root rpo)
  (hlisted : Listed edge preds rpo) (hfinds : Finds root preds rpo find)

include hrpo in
/-- The nodes swept before `b` are those with an earlier place. -/
theorem Order.before_iff {front back : List α} {b c : α}
    (hsplit : rpo.tail = front ++ b :: back) : c = root ∨ c ∈ front ↔ rpo.idxOf c < rpo.idxOf b := by
  obtain ⟨rest, hhead⟩ := hrpo.head
  rw [hhead, List.tail_cons] at hsplit
  have hnodup := hrpo.nodup
  have hform : rpo = (root :: front) ++ b :: back := by rw [hhead, hsplit]; rfl
  rw [hform] at hnodup ⊢
  have hb : b ∉ root :: front := by
    intro hmem
    exact (List.nodup_append.mp hnodup).2.2 b hmem b List.mem_cons_self rfl
  rw [List.idxOf_append_of_notMem hb, List.idxOf_cons_self, ← List.mem_cons]
  constructor
  · intro hc
    rw [List.idxOf_append_of_mem hc]
    exact Nat.lt_of_lt_of_le (List.idxOf_lt_length_iff.mpr hc) (Nat.le_add_right _ _)
  · intro hlt
    by_contra hc
    rw [List.idxOf_append_of_notMem hc] at hlt
    omega

include hrpo in
theorem Order.mem_tail {b : α} : b ∈ rpo.tail ↔ b ∈ rpo ∧ b ≠ root := by
  obtain ⟨rest, hhead⟩ := hrpo.head
  have hnodup := hrpo.nodup
  rw [hhead] at hnodup ⊢
  rw [List.tail_cons, List.mem_cons]
  constructor
  · intro hb
    exact ⟨Or.inr hb, fun heq => (List.nodup_cons.mp hnodup).1 (heq ▸ hb)⟩
  · intro hb
    exact hb.1.resolve_left hb.2

include hrpo hlisted hfinds

/-- A sweep comes to its end, and then every node has a parent. -/
theorem sweep_exists {done l : List α} (htail : rpo.tail = done ++ l) {idom : α → Option α}
    (hplaced : Placed root rpo idom) (hdone : ∀ c ∈ done, (idom c).isSome = true) :
    ∃ r, sweep find l idom = some r ∧ Placed root rpo r.1 ∧ ∀ c ∈ done ++ l, (r.1 c).isSome = true := by
  induction l generalizing done idom with
  | nil =>
    refine ⟨(idom, false), rfl, hplaced, ?_⟩
    rw [List.append_nil]
    exact hdone
  | cons node rest ih =>
    obtain ⟨hmem, hne⟩ := hrpo.mem_tail.mp (htail ▸ List.mem_append_right _ List.mem_cons_self : node ∈ rpo.tail)
    obtain ⟨found, hfound, hcase⟩ := hfinds idom hplaced node hmem
    obtain ⟨a, harpo, hedge, hlt⟩ := hrpo.earlier node hmem hne
    have ha : (idom a).isSome = true := by
      obtain heq | hdoneA := (hrpo.before_iff htail).mpr hlt
      · rw [heq, hplaced.start]
        rfl
      · exact hdone a hdoneA
    have hpred : a ∈ (preds node).filter fun p => (idom p).isSome :=
      List.mem_filter.mpr ⟨(hlisted node hmem a harpo).mpr hedge, ha⟩
    obtain ⟨hnone, -⟩ | ⟨m, hm, hmsome, hmeet⟩ := hcase
    · rw [hnone] at hpred
      exact absurd hpred List.not_mem_nil
    have hless : rpo.idxOf m < rpo.idxOf node :=
      Nat.lt_of_le_of_lt (Chain.ord_le (Placed.rooted hrpo hplaced) (hmeet.chain hpred)) hlt
    have hplaced' : Placed root rpo (Function.update idom node found) := by
      refine ⟨?_, ?_⟩
      · rw [Function.update_of_ne hne.symm]
        exact hplaced.start
      · intro b d hbd
        have hsome : ∀ c, (idom c).isSome = true → (Function.update idom node found c).isSome = true := by
          intro c hc
          by_cases hcb : c = node
          · rw [hcb, Function.update_self, hm]
            rfl
          · rw [Function.update_of_ne hcb]
            exact hc
        by_cases hb : b = node
        · rw [hb, Function.update_self, hm, Option.some.injEq] at hbd
          rw [hb, ← hbd]
          exact ⟨hmem, hsome m hmsome, fun _ => hless⟩
        · rw [Function.update_of_ne hb] at hbd
          obtain ⟨hb', hd, hlt'⟩ := hplaced.up b d hbd
          exact ⟨hb', hsome d hd, hlt'⟩
    have htail' : rpo.tail = (done ++ [node]) ++ rest := by rw [htail, List.append_assoc]; rfl
    have hdone' : ∀ c ∈ done ++ [node], (Function.update idom node found c).isSome = true := by
      intro c hc
      by_cases hcb : c = node
      · rw [hcb, Function.update_self, hm]
        rfl
      · rw [Function.update_of_ne hcb]
        exact hdone c ((List.mem_append.mp hc).resolve_right fun h => hcb (List.mem_singleton.mp h))
    obtain ⟨r, hr, hrplaced, hall⟩ := ih htail' hplaced' hdone'
    rw [List.append_assoc, List.singleton_append] at hall
    rw [sweep, hfound]
    simp only [Option.bind_some]
    by_cases hmoves : found ≠ none ∧ idom node ≠ found
    · rw [if_pos hmoves, hr]
      exact ⟨_, rfl, hrplaced, hall⟩
    · have hsame : Function.update idom node found = idom := by
        have hnone : found ≠ none := by rw [hm]; exact Option.some_ne_none m
        have heq : idom node = found := by_contra fun h => hmoves ⟨hnone, h⟩
        rw [← heq, Function.update_eq_self]
      rw [if_neg hmoves]
      rw [hsame] at hr
      exact ⟨r, hr, hrplaced, hall⟩

omit hlisted hfinds in
/-- A tree that is swept in part is a tree. -/
theorem Placed.mixed {idom idom' : α → Option α} (hplaced : Placed root rpo idom) (hplaced' : Placed root rpo idom')
    (hall : ∀ c ∈ rpo.tail, (idom' c).isSome = true) {front back : List α} {b : α}
    (hsplit : rpo.tail = front ++ b :: back) :
    Placed root rpo fun c => if c ∈ front then idom' c else idom c := by
  have hroot : root ∉ front := by
    intro hmem
    exact (hrpo.mem_tail.mp (hsplit ▸ List.mem_append_left _ hmem : root ∈ rpo.tail)).2 rfl
  refine ⟨?_, ?_⟩
  · simp only [hroot, if_false]
    exact hplaced.start
  · intro c d hcd
    by_cases hc : c ∈ front
    · simp only [hc, if_true] at hcd
      obtain ⟨hmem, hd, hless⟩ := hplaced'.up c d hcd
      refine ⟨hmem, ?_, hless⟩
      have hne := (hrpo.mem_tail.mp (hsplit ▸ List.mem_append_left _ hc : c ∈ rpo.tail)).2
      have hbefore := (hrpo.before_iff hsplit).mp (Or.inr hc)
      obtain heq | hfront := (hrpo.before_iff hsplit).mpr (Nat.lt_trans (hless hne) hbefore)
      · simp only [heq, hroot, if_false]
        rw [hplaced.start]
        rfl
      · simp only [hfront, if_true]
        exact hd
    · simp only [hc, if_false] at hcd
      obtain ⟨hmem, hd, hless⟩ := hplaced.up c d hcd
      refine ⟨hmem, ?_, hless⟩
      by_cases hfront : d ∈ front
      · simp only [hfront, if_true]
        exact hall d (hsplit ▸ List.mem_append_left _ hfront)
      · simp only [hfront, if_false]
        exact hd

/-- Each node ends up where the chains of its predecessors met when the sweep came to it. -/
theorem sweep_meets {idom : α → Option α} {r : (α → Option α) × Bool}
    (hsweep : sweep find rpo.tail idom = some r) (hplaced : Placed root rpo idom) (hplaced' : Placed root rpo r.1)
    (hall : ∀ c ∈ rpo.tail, (r.1 c).isSome = true) {b : α}
    (hb : Reachable edge root b) (hne : b ≠ root) :
    ∃ front back, rpo.tail = front ++ b :: back ∧
      Meet root (above root fun c => if c ∈ front then r.1 c else idom c)
        ((preds b).filter fun p => (if p ∈ front then r.1 p else idom p).isSome) (above root r.1 b) := by
  have hmem := (hrpo.mem b).mpr hb
  obtain ⟨front, back, hsplit⟩ := List.append_of_mem (hrpo.mem_tail.mpr ⟨hmem, hne⟩)
  have hnodup : rpo.tail.Nodup := hrpo.nodup.sublist (List.tail_sublist rpo)
  obtain ⟨-, htrace, -, -⟩ := sweep_trace hsweep hnodup
  obtain ⟨found, hfound, hrb⟩ := htrace front b back hsplit
  have hmixed := hplaced.mixed hrpo hplaced' hall hsplit
  obtain ⟨found', hfound', hcase⟩ := hfinds _ hmixed b hmem
  rw [hfound, Option.some.injEq] at hfound'
  rw [← hfound'] at hcase
  obtain ⟨hnone, -⟩ | ⟨m, hm, -, hmeet⟩ := hcase
  · obtain ⟨a, harpo, hedge, hlt⟩ := hrpo.earlier b hmem hne
    have ha : a ∈ (preds b).filter fun p => (if p ∈ front then r.1 p else idom p).isSome := by
      refine List.mem_filter.mpr ⟨(hlisted b hmem a harpo).mpr hedge, ?_⟩
      by_cases hfront : a ∈ front
      · rw [if_pos hfront]
        exact hall a (hsplit ▸ List.mem_append_left _ hfront)
      · have hroot := ((hrpo.before_iff hsplit).mpr hlt).resolve_right hfront
        rw [if_neg hfront, hroot, hplaced.start]
        rfl
    rw [hnone] at ha
    exact absurd ha List.not_mem_nil
  · refine ⟨front, back, hsplit, ?_⟩
    rw [hm, if_neg (Option.some_ne_none m)] at hrb
    rw [above_of_some hrb]
    exact hmeet

omit hlisted hfinds in
theorem placed_planted : Placed root rpo (planted root) := by
  refine ⟨planted_root root, ?_⟩
  intro b d hbd
  by_cases hb : b = root
  · rw [hb, planted_root, Option.some.injEq] at hbd
    rw [← hbd, planted_root, hb]
    exact ⟨(hrpo.mem _).mpr reachable_root, rfl, fun h => absurd rfl h⟩
  · rw [planted_of_ne hb] at hbd
    cases hbd

theorem sweep_first {r : (α → Option α) × Bool} (hsweep : sweep find rpo.tail (planted root) = some r)
    (hplaced : Placed root rpo r.1) (hall : ∀ c ∈ rpo.tail, (r.1 c).isSome = true) :
    First edge root rpo.idxOf (fun b => (preds b).filter (· ∈ rpo)) (above root r.1) := by
  have hstart := placed_planted hrpo
  refine ⟨Placed.rooted hrpo hplaced, ?_⟩
  intro b hb hne
  obtain ⟨front, back, hsplit, hmeet⟩ := sweep_meets hrpo hlisted hfinds hsweep hstart hplaced hall hb hne
  have hbefore : ∀ c, c = root ∨ c ∈ front ↔ rpo.idxOf c < rpo.idxOf b := fun c => hrpo.before_iff hsplit
  have hmixed := hstart.mixed hrpo hplaced hall hsplit
  have hsame : ∀ c, rpo.idxOf c < rpo.idxOf b →
      above root (fun c => if c ∈ front then r.1 c else planted root c) c = above root r.1 c := by
    intro c hc
    obtain heq | hfront := (hbefore c).mpr hc
    · rw [heq, above_of_some hmixed.start, above_of_some hplaced.start]
    · rw [above, if_pos hfront]
      rfl
  have hnodes : ∀ p, (p ∈ (preds b).filter fun p => (if p ∈ front then r.1 p else planted root p).isSome) ↔
      p ∈ ((preds b).filter (· ∈ rpo)).filter fun a => rpo.idxOf a < rpo.idxOf b := by
    intro p
    rw [List.mem_filter, List.mem_filter, List.mem_filter, and_assoc, decide_eq_true_iff, decide_eq_true_iff,
      ← hbefore p]
    refine and_congr_right fun _ => ?_
    constructor
    · intro hsome
      obtain ⟨d, hd⟩ := Option.isSome_iff_exists.mp hsome
      refine ⟨(hmixed.up p d hd).1, ?_⟩
      by_contra hp
      obtain ⟨hroot, hfront⟩ := not_or.mp hp
      rw [if_neg hfront, planted_of_ne hroot] at hd
      cases hd
    · intro hp
      obtain heq | hfront := hp.2
      · rw [heq, hmixed.start]
        rfl
      · rw [if_pos hfront]
        exact hall p (hsplit ▸ List.mem_append_left _ hfront)
  refine (hmeet.congr_mem hnodes).congr (Placed.rooted hrpo hmixed) (Placed.rooted hrpo hplaced) hsame ?_ ?_
  · intro p hp
    exact of_decide_eq_true (List.mem_filter.mp hp).2
  · exact Placed.rooted hrpo hplaced b hne

theorem sweep_next {idom : α → Option α} {r : (α → Option α) × Bool}
    (hsweep : sweep find rpo.tail idom = some r) (hplaced : Placed root rpo idom) (hplaced' : Placed root rpo r.1)
    (hold : ∀ c ∈ rpo.tail, (idom c).isSome = true) (hall : ∀ c ∈ rpo.tail, (r.1 c).isSome = true) :
    Next edge root rpo.idxOf (fun b => (preds b).filter (· ∈ rpo))
      (above root idom) (above root r.1) := by
  refine ⟨Placed.rooted hrpo hplaced', ?_⟩
  intro b hb hne
  obtain ⟨front, back, hsplit, hmeet⟩ := sweep_meets hrpo hlisted hfinds hsweep hplaced hplaced' hall hb hne
  have hbefore : ∀ c, c = root ∨ c ∈ front ↔ rpo.idxOf c < rpo.idxOf b := fun c => hrpo.before_iff hsplit
  have hmixed := hplaced.mixed hrpo hplaced' hall hsplit
  have hparent : (above root fun c => if c ∈ front then r.1 c else idom c) =
      mixed rpo.idxOf (rpo.idxOf b) (above root idom) (above root r.1) := by
    funext c
    by_cases hc : rpo.idxOf c < rpo.idxOf b
    · refine Eq.trans ?_ (if_pos hc).symm
      obtain heq | hfront := (hbefore c).mpr hc
      · rw [heq, above_of_some hmixed.start, above_of_some hplaced'.start]
      · rw [above, if_pos hfront]
        rfl
    · refine Eq.trans ?_ (if_neg hc).symm
      rw [above, if_neg fun h => hc ((hbefore c).mp (Or.inr h))]
      rfl
  rw [hparent] at hmeet
  refine hmeet.congr_mem fun p => ?_
  rw [List.mem_filter, List.mem_filter, decide_eq_true_iff]
  refine and_congr_right fun _ => ?_
  constructor
  · intro hsome
    obtain ⟨d, hd⟩ := Option.isSome_iff_exists.mp hsome
    exact (hmixed.up p d hd).1
  · intro hp
    by_cases hfront : p ∈ front
    · rw [if_pos hfront]
      exact hall p (hsplit ▸ List.mem_append_left _ hfront)
    · rw [if_neg hfront]
      by_cases hroot : p = root
      · rw [hroot, hplaced.start]
        rfl
      · exact hold p (hrpo.mem_tail.mpr ⟨hp, hroot⟩)

end Sweeps

section Exact

variable {α : Type} [DecidableEq α] {find : (α → Option α) → α → Option (Option α)}

/-- A tree that sweeps have made and that one more leaves as it is. -/
structure Settled (edge : α → α → Prop) (root : α) (preds : α → List α) (rpo : List α) (idom : α → Option α) :
    Prop where
  placed : Placed root rpo idom
  all : ∀ c ∈ rpo, (idom c).isSome = true
  swept : Swept edge root rpo.idxOf (fun b => (preds b).filter (· ∈ rpo)) (above root idom)
  next : Next edge root rpo.idxOf (fun b => (preds b).filter (· ∈ rpo)) (above root idom) (above root idom)

variable {edge : α → α → Prop} {root : α} {preds : α → List α} {rpo : List α} (hrpo : Order edge root rpo)
  (hlisted : Listed edge preds rpo)

include hrpo

theorem Placed.all_of_tail {idom : α → Option α} (hplaced : Placed root rpo idom)
    (hall : ∀ c ∈ rpo.tail, (idom c).isSome = true) : ∀ c ∈ rpo, (idom c).isSome = true := by
  intro c hc
  by_cases heq : c = root
  · rw [heq, hplaced.start]
    rfl
  · exact hall c (hrpo.mem_tail.mpr ⟨hc, heq⟩)

include hlisted

/-- The sweeps come to an end: each that changes the tree moves it closer to the root. -/
theorem iterate_settled (hfinds : Finds root preds rpo find) {fuel : Nat} {idom : α → Option α}
    (hplaced : Placed root rpo idom) (hold : ∀ c ∈ rpo.tail, (idom c).isSome = true)
    (hswept : Swept edge root rpo.idxOf (fun b => (preds b).filter (· ∈ rpo)) (above root idom))
    (hfuel : rpo.tail.total (fun b => rpo.idxOf (above root idom b)) < fuel) :
    ∃ idom', iterate find rpo fuel idom = some idom' ∧ Settled edge root preds rpo idom' := by
  induction fuel generalizing idom with
  | zero => exact absurd hfuel (Nat.not_lt_zero _)
  | succ fuel ih =>
    obtain ⟨r, hr, hplaced', hall⟩ := sweep_exists hrpo hlisted hfinds (l := rpo.tail) (List.nil_append _).symm
      hplaced fun c hc => absurd hc List.not_mem_nil
    rw [List.nil_append] at hall
    have hordered := hrpo.ordered hlisted
    have hnext := sweep_next hrpo hlisted hfinds hr hplaced hplaced' hold hall
    obtain ⟨-, -, hstill, hmoved⟩ := sweep_trace hr (hrpo.nodup.sublist (List.tail_sublist rpo))
    rw [iterate, hr]
    simp only [Option.bind_some]
    cases hflag : r.2 with
    | false =>
      rw [hstill hflag] at hnext
      refine ⟨r.1, rfl, ?_⟩
      rw [hstill hflag]
      exact ⟨hplaced, hplaced.all_of_tail hrpo hold, hswept, hnext⟩
    | true =>
      have hnodes : ∀ b ∈ rpo.tail, Reachable edge root b ∧ b ≠ root := by
        intro b hb
        obtain ⟨hmem, hne⟩ := hrpo.mem_tail.mp hb
        exact ⟨(hrpo.mem b).mp hmem, hne⟩
      have hmoves : ∃ b ∈ rpo.tail, above root r.1 b ≠ above root idom b := by
        obtain ⟨b, hb, hdiffer⟩ := hmoved hflag
        obtain ⟨d, hd⟩ := Option.isSome_iff_exists.mp (hall b hb)
        obtain ⟨e, he⟩ := Option.isSome_iff_exists.mp (hold b hb)
        refine ⟨b, hb, fun heq => hdiffer ?_⟩
        rw [above_of_some hd, above_of_some he] at heq
        rw [hd, he, heq]
      have hless := hnext.total_lt hordered hswept hnodes hmoves
      exact ih hplaced' hall (hnext.swept hordered hswept) (by omega)

/-- From the root alone, they settle within as many sweeps as the order's length squared and two more. -/
theorem iterate_planted (hfinds : Finds root preds rpo find) {fuel : Nat}
    (hfuel : rpo.length * rpo.length + 2 ≤ fuel) :
    ∃ idom, iterate find rpo fuel (planted root) = some idom ∧ Settled edge root preds rpo idom := by
  obtain ⟨fuel, rfl⟩ : ∃ k, fuel = k + 1 := ⟨fuel - 1, by omega⟩
  have hstart := placed_planted hrpo
  obtain ⟨r, hr, hplaced, hall⟩ := sweep_exists hrpo hlisted hfinds (l := rpo.tail) (List.nil_append _).symm hstart
    fun c hc => absurd hc List.not_mem_nil
  rw [List.nil_append] at hall
  have hswept := (sweep_first hrpo hlisted hfinds hr hplaced hall).swept (hrpo.ordered hlisted)
  obtain ⟨-, -, hstill, -⟩ := sweep_trace hr (hrpo.nodup.sublist (List.tail_sublist rpo))
  rw [iterate, hr]
  simp only [Option.bind_some]
  cases hflag : r.2 with
  | false =>
    -- Nothing was placed, so there is nothing but the root.
    refine ⟨r.1, rfl, hplaced, hplaced.all_of_tail hrpo hall, hswept, Placed.rooted hrpo hplaced, ?_⟩
    intro b hb hne
    have hsome := hall b (hrpo.mem_tail.mpr ⟨(hrpo.mem b).mpr hb, hne⟩)
    rw [hstill hflag, planted_of_ne hne] at hsome
    cases hsome
  | true =>
    refine iterate_settled hrpo hlisted hfinds hplaced hall hswept ?_
    have hbound : ∀ b ∈ rpo.tail, rpo.idxOf (above root r.1 b) ≤ rpo.length := by
      intro b hb
      obtain ⟨hmem, hne⟩ := hrpo.mem_tail.mp hb
      have hless : rpo.idxOf (above root r.1 b) < rpo.idxOf b := Placed.rooted hrpo hplaced b hne
      exact Nat.le_of_lt (Nat.lt_trans hless (List.idxOf_lt_length_iff.mpr hmem))
    have htotal := List.total_le hbound
    have htail := Nat.mul_le_mul_right rpo.length (List.tail_sublist rpo).length_le
    omega

variable {idom : α → Option α} (hsettled : Settled edge root preds rpo idom)

include hsettled

theorem Settled.dominates_iff {b d : α} (hb : Reachable edge root b) :
    Dominates edge root d b ↔ Chain root (above root idom) b d :=
  dominates_iff_chain (hrpo.ordered hlisted) hsettled.next hsettled.swept hb

omit hlisted in
/-- In a settled tree a node hangs below the meet of all its predecessors. -/
theorem Settled.meet {b : α} (hb : b ∈ rpo) (hne : b ≠ root) :
    Meet root (above root idom) ((preds b).filter (· ∈ rpo)) (above root idom b) := by
  have hmeet := hsettled.next.meets b ((hrpo.mem b).mp hb) hne
  have hsame : ∀ t, mixed rpo.idxOf t (above root idom) (above root idom) = above root idom := by
    intro t
    funext c
    exact ite_self _
  rw [hsame] at hmeet
  exact hmeet

omit hlisted in
theorem Settled.none_iff (b : α) : idom b = none ↔ ¬ Reachable edge root b := by
  rw [← hrpo.mem b]
  constructor
  · intro hnone hmem
    have hsome := hsettled.all b hmem
    rw [hnone] at hsome
    cases hsome
  · intro hmem
    cases hb : idom b with
    | none => rfl
    | some d => exact absurd (hsettled.placed.up b d hb).1 hmem

/-- The parents are the immediate dominators. -/
theorem Settled.some_iff {b d : α} (hb : Reachable edge root b) (hne : b ≠ root) :
    idom b = some d ↔ Immediate edge root d b := by
  have hordered := hrpo.ordered hlisted
  obtain ⟨e, he⟩ := Option.isSome_iff_exists.mp (hsettled.all b ((hrpo.mem b).mpr hb))
  have himmediate := immediate_parent hordered hsettled.next hsettled.swept hb hne
  rw [above_of_some he] at himmediate
  rw [he, Option.some.injEq]
  constructor
  · intro heq
    rw [← heq]
    exact himmediate
  · intro himm
    -- Two immediate dominators are each an ancestor of the other.
    have hde := himm.2.2 e himmediate.1 himmediate.2.1
    have hed := himmediate.2.2 d himm.1 himm.2.1
    have hereach := himmediate.2.1.reachable hb
    have hdreach := himm.2.1.reachable hb
    have hchain := (hsettled.dominates_iff hrpo hlisted hdreach).mp hde
    have hchain' := (hsettled.dominates_iff hrpo hlisted hereach).mp hed
    by_contra hdiffer
    have hlt := Chain.ord_lt hsettled.swept.rooted hchain hdiffer
    have hlt' := Chain.ord_lt hsettled.swept.rooted hchain' fun h => hdiffer h.symm
    omega

end Exact

section Numbered

variable {α : Type} [DecidableEq α]

/-- The edges of a graph between the places that its nodes have in a list. -/
def Numbered (edge : α → α → Prop) (rpo : List α) (i j : Nat) : Prop :=
  ∃ a b, rpo[i]? = some a ∧ rpo[j]? = some b ∧ edge a b

theorem idxOf_range {n i : Nat} (hi : i < n) : (List.range n).idxOf i = i := by
  have hlt : i < (List.range n).length := by rw [List.length_range]; exact hi
  have hidx := List.nodup_range.idxOf_getElem i hlt
  rw [List.getElem_range hlt] at hidx
  exact hidx

variable {edge : α → α → Prop} {root : α} {rpo : List α} (hrpo : Order edge root rpo)

include hrpo

theorem Order.idxOf_eq {i : Nat} {a : α} (hi : rpo[i]? = some a) : rpo.idxOf a = i := by
  obtain ⟨hlt, rfl⟩ := List.getElem?_eq_some_iff.mp hi
  exact hrpo.nodup.idxOf_getElem i hlt

theorem Order.getElem?_idxOf {a : α} (ha : Reachable edge root a) : rpo[rpo.idxOf a]? = some a := by
  have hlt := List.idxOf_lt_length_iff.mpr ((hrpo.mem a).mpr ha)
  rw [List.getElem?_eq_getElem hlt, List.getElem_idxOf]

theorem Order.reachable_of_getElem? {i : Nat} {a : α} (hi : rpo[i]? = some a) : Reachable edge root a :=
  (hrpo.mem a).mp (List.mem_of_getElem? hi)

theorem Order.numbered_edge {a b : α} (ha : Reachable edge root a) (hedge : edge a b) :
    Numbered edge rpo (rpo.idxOf a) (rpo.idxOf b) :=
  ⟨a, b, hrpo.getElem?_idxOf ha, hrpo.getElem?_idxOf (ha.step hedge), hedge⟩

theorem Order.reachable_numbered {i : Nat} : Reachable (Numbered edge rpo) 0 i ↔ i < rpo.length := by
  constructor
  · intro hreach
    rw [reachable_iff] at hreach
    obtain heq | ⟨j, -, hedge⟩ := Relation.ReflTransGen.cases_tail hreach
    · rw [heq]
      obtain ⟨rest, hhead⟩ := hrpo.head
      rw [hhead]
      exact Nat.succ_pos _
    · obtain ⟨-, b, -, hb, -⟩ := hedge
      exact (List.getElem?_eq_some_iff.mp hb).1
  · intro hlt
    have hget := List.getElem?_eq_getElem hlt
    obtain ⟨l, hwalk⟩ := hrpo.reachable_of_getElem? hget
    have hmapped := hwalk.map fun a b ha hedge => hrpo.numbered_edge ha hedge
    rw [hrpo.idxOf_root, hrpo.idxOf_eq hget] at hmapped
    exact hmapped.reachable

/-- The places of an order are an order of themselves. -/
theorem Order.numbered : Order (Numbered edge rpo) 0 (List.range rpo.length) := by
  obtain ⟨rest, hhead⟩ := hrpo.head
  refine ⟨List.nodup_range, ?_, ?_, ?_⟩
  · rw [hhead, List.length_cons, List.range_succ_eq_map]
    exact ⟨_, rfl⟩
  · intro i
    rw [List.mem_range]
    exact hrpo.reachable_numbered.symm
  · intro j hj hne
    rw [List.mem_range] at hj
    have hget := List.getElem?_eq_getElem hj
    have hroot : rpo[j] ≠ root := by
      intro heq
      have hidx := hrpo.idxOf_eq hget
      rw [heq, hrpo.idxOf_root] at hidx
      exact hne hidx.symm
    obtain ⟨a, ha, hedge, hlt⟩ := hrpo.earlier _ (List.mem_of_getElem? hget) hroot
    have hless : rpo.idxOf a < rpo.length := List.idxOf_lt_length_iff.mpr ha
    have hnumbered := hrpo.numbered_edge ((hrpo.mem a).mp ha) hedge
    rw [hrpo.idxOf_eq hget] at hnumbered hlt
    exact ⟨rpo.idxOf a, List.mem_range.mpr hless, hnumbered, by rw [idxOf_range hless, idxOf_range hj]; exact hlt⟩

/-- Nodes dominate each other as their places do. -/
theorem Order.dominates_numbered {i j : Nat} {a b : α} (hi : rpo[i]? = some a) (hj : rpo[j]? = some b) :
    Dominates (Numbered edge rpo) 0 i j ↔ Dominates edge root a b := by
  constructor
  · intro hdom
    refine Dominates.of_map (fun _ _ hx hedge => hrpo.numbered_edge hx hedge) ?_ ?_
    · intro x hx heq
      exact (List.idxOf_inj ((hrpo.mem x).mpr hx)).mp heq
    · rw [hrpo.idxOf_root, hrpo.idxOf_eq hi, hrpo.idxOf_eq hj]
      exact hdom
  · intro hdom
    obtain ⟨f, hf⟩ : ∃ f : Nat → α, ∀ k, f k = (rpo[k]?).getD root := ⟨_, fun _ => rfl⟩
    have hfrom : ∀ k c, rpo[k]? = some c → f k = c := by
      intro k c hk
      rw [hf, hk]
      rfl
    have hzero : f 0 = root := by
      obtain ⟨rest, hhead⟩ := hrpo.head
      exact hfrom 0 root (by rw [hhead]; rfl)
    have hkeep : ∀ k m, Reachable (Numbered edge rpo) 0 k → Numbered edge rpo k m → edge (f k) (f m) := by
      intro k m _ hedge
      obtain ⟨x, y, hx, hy, hxy⟩ := hedge
      rw [hfrom k x hx, hfrom m y hy]
      exact hxy
    refine Dominates.of_map hkeep ?_ ?_
    · intro k hk heq
      have hget := List.getElem?_eq_getElem (hrpo.reachable_numbered.mp hk)
      rw [hfrom i a hi, hfrom k _ hget] at heq
      have hk' := hrpo.idxOf_eq hget
      rw [heq] at hk'
      exact hk'.symm.trans (hrpo.idxOf_eq hi)
    · rw [hzero, hfrom i a hi, hfrom j b hj]
      exact hdom

end Numbered

end Dominance
