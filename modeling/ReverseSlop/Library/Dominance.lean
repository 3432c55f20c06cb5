import Mathlib.Algebra.Order.Group.Nat
import Mathlib.Data.List.Nodup
import Mathlib.Logic.Relation
import Mathlib.Tactic.Cases
import ReverseSlop.Library.Lists

namespace Dominance

section Walks

variable {α : Type} (edge : α → α → Prop) (root : α)

/-- The nodes of a walk from the root, its end in front. -/
inductive Walk : α → List α → Prop where
  | root : Walk root [root]
  | step {a b : α} {l : List α} (hwalk : Walk a l) (hedge : edge a b) : Walk b (b :: l)

def Reachable (n : α) : Prop := ∃ l, Walk edge root n l

/-- Every walk to `n` comes through `d`. -/
def Dominates (d n : α) : Prop := ∀ l, Walk edge root n l → d ∈ l

/-- The strict dominator of `n` that all others dominate. -/
def Immediate (d n : α) : Prop :=
  d ≠ n ∧ Dominates edge root d n ∧ ∀ e, e ≠ n → Dominates edge root e n → Dominates edge root e d

/-- The nodes at which the domination by `d` ends. -/
def Frontier (d n : α) : Prop :=
  (∃ p, edge p n ∧ Reachable edge root p ∧ Dominates edge root d p) ∧ ¬ (Dominates edge root d n ∧ d ≠ n)

variable {edge root}

theorem Walk.mem {n : α} {l : List α} (hwalk : Walk edge root n l) : n ∈ l := by
  cases hwalk with
  | root => exact List.mem_singleton_self root
  | step _ _ => exact List.mem_cons_self

theorem Walk.reachable {n : α} {l : List α} (hwalk : Walk edge root n l) : Reachable edge root n := ⟨l, hwalk⟩

theorem reachable_root : Reachable edge root root := ⟨[root], .root⟩

theorem Reachable.step {a b : α} (ha : Reachable edge root a) (hedge : edge a b) : Reachable edge root b := by
  obtain ⟨l, hwalk⟩ := ha
  exact ⟨b :: l, .step hwalk hedge⟩

theorem reachable_iff {n : α} : Reachable edge root n ↔ Relation.ReflTransGen edge root n := by
  constructor
  · intro hreach
    obtain ⟨l, hwalk⟩ := hreach
    induction hwalk with
    | root => exact Relation.ReflTransGen.refl
    | step _ hedge ih => exact Relation.ReflTransGen.tail ih hedge
  · intro hpath
    induction hpath with
    | refl => exact reachable_root
    | tail _ hedge ih => exact ih.step hedge

/-- A walk can be cut at each of its nodes. -/
theorem Walk.cut {n d : α} {l : List α} (hwalk : Walk edge root n l) (hd : d ∈ l) :
    ∃ front back, l = front ++ back ∧ Walk edge root d back := by
  induction hwalk with
  | root =>
    rw [List.mem_singleton] at hd
    rw [hd]
    exact ⟨[], [root], rfl, .root⟩
  | @step a b l hwalk hedge ih =>
    obtain hdb | hl := List.mem_cons.mp hd
    · rw [hdb]
      exact ⟨[], b :: l, rfl, .step hwalk hedge⟩
    · obtain ⟨front, back, hcut, hback⟩ := ih hl
      exact ⟨b :: front, back, by rw [hcut]; rfl, hback⟩

theorem Walk.reachable_of_mem {n d : α} {l : List α} (hwalk : Walk edge root n l) (hd : d ∈ l) :
    Reachable edge root d := by
  obtain ⟨_, back, _, hback⟩ := hwalk.cut hd
  exact hback.reachable

theorem dominates_refl (n : α) : Dominates edge root n n := fun _ hwalk => hwalk.mem

/-- What dominates the end of an edge and is not that end dominates its start. -/
theorem Dominates.of_edge {d p n : α} (hdom : Dominates edge root d n) (hne : d ≠ n) (hedge : edge p n) :
    Dominates edge root d p := by
  intro l hwalk
  obtain heq | hl := List.mem_cons.mp (hdom (n :: l) (.step hwalk hedge))
  · exact absurd heq hne
  · exact hl

theorem Dominates.eq_root {d : α} (hdom : Dominates edge root d root) : d = root :=
  List.mem_singleton.mp (hdom [root] .root)

theorem Dominates.reachable {d n : α} (hdom : Dominates edge root d n) (hn : Reachable edge root n) :
    Reachable edge root d := by
  obtain ⟨l, hwalk⟩ := hn
  exact hwalk.reachable_of_mem (hdom l hwalk)

/-- A map that keeps the edges between reachable nodes keeps the walks. -/
theorem Walk.map {β : Type} {edge' : β → β → Prop} {f : α → β}
    (hf : ∀ a b, Reachable edge root a → edge a b → edge' (f a) (f b)) {n : α} {l : List α}
    (hwalk : Walk edge root n l) : Walk edge' (f root) (f n) (l.map f) := by
  induction hwalk with
  | root => exact .root
  | step hwalk hedge ih => exact .step ih (hf _ _ hwalk.reachable hedge)

/-- What dominates behind such a map dominates in front of it. -/
theorem Dominates.of_map {β : Type} {edge' : β → β → Prop} {f : α → β}
    (hf : ∀ a b, Reachable edge root a → edge a b → edge' (f a) (f b)) {d n : α}
    (hd : ∀ a, Reachable edge root a → f a = f d → a = d) (hdom : Dominates edge' (f root) (f d) (f n)) :
    Dominates edge root d n := by
  intro l hwalk
  obtain ⟨a, ha, heq⟩ := List.mem_map.mp (hdom _ (hwalk.map hf))
  exact hd a (hwalk.reachable_of_mem ha) heq ▸ ha

/-- The natural loop that an edge from `latch` to `header` closes: what reaches the latch but not through the header. -/
inductive Loop (edge : α → α → Prop) (root header latch : α) : α → Prop where
  | header : Loop edge root header latch header
  | latch : Loop edge root header latch latch
  | pred {a b : α} (hloop : Loop edge root header latch b) (hne : b ≠ header) (hedge : edge a b)
    (hreach : Reachable edge root a) : Loop edge root header latch a

end Walks

section Chains

variable {α : Type} (root : α) (ord : α → Nat) (parent : α → α)

/-- Parents come earlier in the order. -/
def Rooted : Prop := ∀ b, b ≠ root → ord (parent b) < ord b

/-- `d` is `b` or one of its ancestors. -/
inductive Chain : α → α → Prop where
  | here (b : α) : Chain b b
  | up {b d : α} (hb : b ≠ root) (hchain : Chain (parent b) d) : Chain b d

variable {root ord parent}

theorem Chain.trans {b c d : α} (hbc : Chain root parent b c) (hcd : Chain root parent c d) :
    Chain root parent b d := by
  induction hbc with
  | here => exact hcd
  | up hb _ ih => exact .up hb (ih hcd)

theorem Chain.eq_root {d : α} (hchain : Chain root parent root d) : d = root := by
  cases hchain with
  | here => rfl
  | up hb _ => exact absurd rfl hb

/-- A proper ancestor is an ancestor of the parent. -/
theorem Chain.of_ne {b d : α} (hchain : Chain root parent b d) (hne : d ≠ b) :
    b ≠ root ∧ Chain root parent (parent b) d := by
  cases hchain with
  | here => exact absurd rfl hne
  | up hb hchain => exact ⟨hb, hchain⟩

theorem chain_iff {b d : α} (hb : b ≠ root) :
    Chain root parent b d ↔ d = b ∨ Chain root parent (parent b) d := by
  constructor
  · intro hchain
    by_cases hd : d = b
    · exact Or.inl hd
    · exact Or.inr (hchain.of_ne hd).2
  · intro hcases
    obtain rfl | hchain := hcases
    · exact .here d
    · exact .up hb hchain

variable (hrooted : Rooted root ord parent)

include hrooted

theorem Chain.ord_le {b d : α} (hchain : Chain root parent b d) : ord d ≤ ord b := by
  induction hchain with
  | here => exact Nat.le_refl _
  | up hb _ ih => exact Nat.le_trans ih (Nat.le_of_lt (hrooted _ hb))

theorem Chain.ord_lt {b d : α} (hchain : Chain root parent b d) (hne : d ≠ b) : ord d < ord b := by
  obtain ⟨hb, hup⟩ := hchain.of_ne hne
  exact Nat.lt_of_le_of_lt (Chain.ord_le hrooted hup) (hrooted _ hb)

theorem chain_root (b : α) : Chain root parent b root := by
  induction hn : ord b using Nat.strong_induction_on generalizing b with
  | _ n ih =>
    by_cases hb : b = root
    · rw [hb]
      exact .here root
    · exact .up hb (ih _ (hn ▸ hrooted b hb) _ rfl)

/-- Two ancestors of one node are ancestors one of the other. -/
theorem Chain.linear {b c d : α} (hc : Chain root parent b c) (hd : Chain root parent b d) (hle : ord d ≤ ord c) :
    Chain root parent c d := by
  induction hc with
  | here => exact hd
  | @up b c hb hc ih =>
    by_cases hne : d = b
    · -- `d` would be later than its proper ancestor `c`.
      rw [hne] at hle
      exact absurd (Nat.lt_of_le_of_lt (Chain.ord_le hrooted hc) (hrooted b hb)) (Nat.not_lt.mpr hle)
    · exact ih (hd.of_ne hne).2 hle

/-- To go up from the later of two nodes keeps their common ancestors. -/
theorem common_up {a b d : α} (hlt : ord b < ord a) (ha : a ≠ root) :
    Chain root parent (parent a) d ∧ Chain root parent b d ↔ Chain root parent a d ∧ Chain root parent b d := by
  constructor
  · intro h
    exact ⟨.up ha h.1, h.2⟩
  · intro h
    have hne : d ≠ a := by
      intro heq
      have hle := Chain.ord_le hrooted h.2
      rw [heq] at hle
      omega
    exact ⟨(h.1.of_ne hne).2, h.2⟩

/-- Trees that agree up to a node have the same chain there. -/
theorem Chain.congr {parent' : α → α} {b d : α} (hsame : ∀ c, ord c ≤ ord b → parent c = parent' c)
    (hchain : Chain root parent b d) : Chain root parent' b d := by
  induction hchain with
  | here => exact .here _
  | @up b d hb _ ih =>
    have hup := ih fun c hc => hsame c (Nat.le_trans hc (Nat.le_of_lt (hrooted b hb)))
    rw [hsame b (Nat.le_refl _)] at hup
    exact .up hb hup

end Chains

section Meets

variable {α : Type} (root : α) (parent : α → α)

/-- `m` is the last node on all chains from a list of nodes. -/
def Meet (nodes : List α) (m : α) : Prop := ∀ d, Chain root parent m d ↔ ∀ p ∈ nodes, Chain root parent p d

variable {root parent}

theorem Meet.singleton (p : α) : Meet root parent [p] p := by
  intro d
  constructor
  · intro hchain q hq
    rw [List.mem_singleton] at hq
    rw [hq]
    exact hchain
  · intro hall
    exact hall p (List.mem_singleton_self p)

/-- What a fold over the nodes has found so far is met with one node more. -/
theorem Meet.snoc {nodes : List α} {p m m' : α} (hmeet : Meet root parent nodes m)
    (hcommon : ∀ d, Chain root parent m' d ↔ Chain root parent m d ∧ Chain root parent p d) :
    Meet root parent (nodes ++ [p]) m' := by
  intro d
  rw [hcommon, hmeet, List.forall_mem_append, List.forall_mem_singleton]

theorem Meet.chain {nodes : List α} {m p : α} (hmeet : Meet root parent nodes m) (hp : p ∈ nodes) :
    Chain root parent p m := (hmeet m).mp (.here m) p hp

theorem Meet.congr_mem {nodes nodes' : List α} {m : α} (hsame : ∀ p, p ∈ nodes ↔ p ∈ nodes')
    (hmeet : Meet root parent nodes m) : Meet root parent nodes' m := by
  intro d
  rw [hmeet d]
  exact forall_congr' fun p => imp_congr_left (hsame p)

theorem Meet.congr {ord : α → Nat} {parent' : α → α} (hrooted : Rooted root ord parent)
    (hrooted' : Rooted root ord parent') {nodes : List α} {m : α} {bound : Nat}
    (hsame : ∀ c, ord c < bound → parent c = parent' c) (hnodes : ∀ p ∈ nodes, ord p < bound) (hm : ord m < bound)
    (hmeet : Meet root parent nodes m) : Meet root parent' nodes m := by
  have hchain : ∀ b d, ord b < bound → (Chain root parent' b d ↔ Chain root parent b d) := by
    intro b d hb
    constructor
    · exact Chain.congr hrooted' fun c hc => (hsame c (Nat.lt_of_le_of_lt hc hb)).symm
    · exact Chain.congr hrooted fun c hc => hsame c (Nat.lt_of_le_of_lt hc hb)
  intro d
  rw [hchain m d hm, hmeet d]
  constructor
  · exact fun hall p hp => (hchain p d (hnodes p hp)).mpr (hall p hp)
  · exact fun hall p hp => (hchain p d (hnodes p hp)).mp (hall p hp)

end Meets

section Sweeps

variable {α : Type} (edge : α → α → Prop) (root : α) (ord : α → Nat) (preds : α → List α)

/-- An order in which every node but the root has a predecessor before it; only predecessors that can be reached
count. -/
structure Ordered : Prop where
  mem_preds : ∀ b a, Reachable edge root b → (a ∈ preds b ↔ edge a b ∧ Reachable edge root a)
  earlier : ∀ b, Reachable edge root b → b ≠ root → ∃ a ∈ preds b, ord a < ord b

/-- A sweep that has come to the nodes at `t`. -/
def mixed (t : Nat) (before after : α → α) (b : α) : α := if ord b < t then after b else before b

/-- The first sweep, which takes each node below the predecessors it has placed already. -/
structure First (parent : α → α) : Prop where
  rooted : Rooted root ord parent
  meets : ∀ b, Reachable edge root b → b ≠ root →
    Meet root parent ((preds b).filter fun a => ord a < ord b) (parent b)

/-- A later sweep, which moves each node in turn below all of its predecessors. -/
structure Next (before after : α → α) : Prop where
  rooted : Rooted root ord after
  meets : ∀ b, Reachable edge root b → b ≠ root →
    Meet root (mixed ord (ord b) before after) (preds b) (after b)

/-- `b` can be reached from `m` through nodes that are not before `m`. -/
def Late (m b : α) : Prop := Relation.ReflTransGen (fun a c => edge a c ∧ ord m ≤ ord c) m b

/-- What each move of a sweep keeps: no dominator leaves a chain. -/
structure Sound (parent : α → α) : Prop where
  rooted : Rooted root ord parent
  reach : ∀ b, Reachable edge root b → b ≠ root → Reachable edge root (parent b)
  late : ∀ b, Reachable edge root b → b ≠ root → Late edge ord (parent b) b
  dominators : ∀ b d, Reachable edge root b → Dominates edge root d b → Chain root parent b d

/-- What holds between two sweeps. -/
structure Swept (parent : α → α) : Prop extends Sound edge root ord parent where
  shared : ∀ b, Reachable edge root b → b ≠ root → ∀ p ∈ preds b, ord p < ord b → Chain root parent p (parent b)
  lowest : ∀ b d, Reachable edge root b → b ≠ root → (∀ p ∈ preds b, Chain root parent p d) → ord d ≤ ord (parent b)

variable {edge root ord preds}

theorem mixed_of_lt {t : Nat} {before after : α → α} {b : α} (hlt : ord b < t) :
    mixed ord t before after b = after b := if_pos hlt

theorem mixed_of_le {t : Nat} {before after : α → α} {b : α} (hle : t ≤ ord b) :
    mixed ord t before after b = before b := if_neg (Nat.not_lt.mpr hle)

theorem mixed_zero (before after : α → α) : mixed ord 0 before after = before := by
  funext b
  exact mixed_of_le (Nat.zero_le _)

theorem mixed_rooted {before after : α → α} (hbefore : Rooted root ord before) (hafter : Rooted root ord after)
    (t : Nat) : Rooted root ord (mixed ord t before after) := by
  intro b hb
  by_cases hlt : ord b < t
  · rw [mixed_of_lt hlt]
    exact hafter b hb
  · rw [mixed_of_le (Nat.not_lt.mp hlt)]
    exact hbefore b hb

theorem Late.mono {m m' b : α} (hlate : Late edge ord m b) (hle : ord m' ≤ ord m) (hstart : Late edge ord m' m) :
    Late edge ord m' b := by
  induction hlate with
  | refl => exact hstart
  | tail _ hstep ih => exact Relation.ReflTransGen.tail ih ⟨hstep.1, Nat.le_trans hle hstep.2⟩

/-- A dominator that comes before `m` lies on the way to `m`. -/
theorem Dominates.of_late {d m b : α} (hdom : Dominates edge root d b) (hlt : ord d < ord m)
    (hlate : Late edge ord m b) : Dominates edge root d m := by
  intro l hwalk
  have hextend : ∀ c, Late edge ord m c → ∃ front, Walk edge root c (front ++ l) ∧ ∀ x ∈ front, ord m ≤ ord x := by
    intro c hc
    induction hc with
    | refl => exact ⟨[], hwalk, fun x hx => absurd hx List.not_mem_nil⟩
    | @tail x y _ hstep ih =>
      obtain ⟨front, hfront, hall⟩ := ih
      refine ⟨y :: front, .step hfront hstep.1, ?_⟩
      intro z hz
      obtain hz | hz := List.mem_cons.mp hz
      · rw [hz]
        exact hstep.2
      · exact hall z hz
  obtain ⟨front, hfront, hall⟩ := hextend b hlate
  obtain hd | hd := List.mem_append.mp (hdom _ hfront)
  · exact absurd (hall d hd) (Nat.not_le.mpr hlt)
  · exact hd

theorem Sound.reach_chain {parent : α → α} (hsound : Sound edge root ord parent) {b d : α}
    (hb : Reachable edge root b) (hchain : Chain root parent b d) : Reachable edge root d := by
  induction hchain with
  | here => exact hb
  | up hne _ ih => exact ih (hsound.reach _ hb hne)

theorem Sound.late_chain {parent : α → α} (hsound : Sound edge root ord parent) {b d : α}
    (hb : Reachable edge root b) (hchain : Chain root parent b d) : Late edge ord d b := by
  induction hchain with
  | here => exact Relation.ReflTransGen.refl
  | up hne hup ih =>
    exact (hsound.late _ hb hne).mono (Chain.ord_le hsound.rooted hup) (ih (hsound.reach _ hb hne))

/-- A node placed on the chain of a predecessor. -/
theorem Sound.late_step {parent : α → α} (hsound : Sound edge root ord parent) {p b m : α}
    (hp : Reachable edge root p) (hedge : edge p b) (hchain : Chain root parent p m) (hlt : ord m < ord b) :
    Late edge ord m b :=
  Relation.ReflTransGen.tail (hsound.late_chain hp hchain) ⟨hedge, Nat.le_of_lt hlt⟩

section

variable (hordered : Ordered edge root ord preds)

include hordered

theorem Ordered.reach_pred {b p : α} (hb : Reachable edge root b) (hp : p ∈ preds b) : Reachable edge root p :=
  ((hordered.mem_preds b p hb).mp hp).2

theorem Ordered.edge_pred {b p : α} (hb : Reachable edge root b) (hp : p ∈ preds b) : edge p b :=
  ((hordered.mem_preds b p hb).mp hp).1

/-- The first sweep leaves a tree that no dominator is missing from. -/
theorem First.swept {parent : α → α} (hfirst : First edge root ord preds parent) :
    Swept edge root ord preds parent := by
  have hchosen : ∀ b, Reachable edge root b → b ≠ root → ∃ p ∈ preds b, ord p < ord b ∧
      Chain root parent p (parent b) := by
    intro b hb hne
    obtain ⟨p, hp, hlt⟩ := hordered.earlier b hb hne
    refine ⟨p, hp, hlt, (hfirst.meets b hb hne).chain ?_⟩
    exact List.mem_filter.mpr ⟨hp, decide_eq_true hlt⟩
  have hreach : ∀ b, Reachable edge root b → ∀ d, Chain root parent b d → Reachable edge root d := by
    intro b
    induction hn : ord b using Nat.strong_induction_on generalizing b with
    | _ n ih =>
      intro hb d hchain
      by_cases hd : d = b
      · rw [hd]
        exact hb
      · obtain ⟨hne, hup⟩ := hchain.of_ne hd
        obtain ⟨p, hp, hlt, hparent⟩ := hchosen b hb hne
        exact ih (ord p) (hn ▸ hlt) p rfl (hordered.reach_pred hb hp) d (hparent.trans hup)
  have hlate : ∀ b, Reachable edge root b → ∀ d, Chain root parent b d → Late edge ord d b := by
    intro b
    induction hn : ord b using Nat.strong_induction_on generalizing b with
    | _ n ih =>
      intro hb d hchain
      by_cases hd : d = b
      · rw [hd]
        exact Relation.ReflTransGen.refl
      · obtain ⟨hne, hup⟩ := hchain.of_ne hd
        obtain ⟨p, hp, hlt, hparent⟩ := hchosen b hb hne
        have hpd := ih (ord p) (hn ▸ hlt) p rfl (hordered.reach_pred hb hp) d (hparent.trans hup)
        have hle := Nat.lt_of_le_of_lt (Chain.ord_le hfirst.rooted hup) (hfirst.rooted b hne)
        exact Relation.ReflTransGen.tail hpd ⟨hordered.edge_pred hb hp, Nat.le_of_lt hle⟩
  refine ⟨⟨hfirst.rooted, ?_, ?_, ?_⟩, ?_, ?_⟩
  · intro b hb hne
    exact hreach b hb _ (.up hne (.here _))
  · intro b hb hne
    exact hlate b hb _ (.up hne (.here _))
  · intro b
    induction hn : ord b using Nat.strong_induction_on generalizing b with
    | _ n ih =>
      intro d hb hdom
      by_cases hd : d = b
      · rw [hd]
        exact .here b
      · have hne : b ≠ root := fun heq => hd ((heq ▸ hdom).eq_root.trans heq.symm)
        refine .up hne ((hfirst.meets b hb hne d).mpr ?_)
        intro p hp
        obtain ⟨hp, hlt⟩ := List.mem_filter.mp hp
        exact ih (ord p) (hn ▸ of_decide_eq_true hlt) p rfl d (hordered.reach_pred hb hp)
          (hdom.of_edge hd (hordered.edge_pred hb hp))
  · intro b hb hne p hp hlt
    exact (hfirst.meets b hb hne).chain (List.mem_filter.mpr ⟨hp, decide_eq_true hlt⟩)
  · intro b d hb hne hall
    refine Chain.ord_le hfirst.rooted ((hfirst.meets b hb hne d).mpr ?_)
    intro p hp
    exact hall p (List.mem_filter.mp hp).1

/-- The moves of the nodes at `t` keep every dominator on the chains. -/
theorem Sound.advance {before after : α → α} {t : Nat} (hnext : Next edge root ord preds before after)
    (hsound : Sound edge root ord (mixed ord t before after)) :
    Sound edge root ord (mixed ord (t + 1) before after) := by
  have hbelow : ∀ c, ord c < t → mixed ord t before after c = mixed ord (t + 1) before after c := by
    intro c hc
    rw [mixed_of_lt hc, mixed_of_lt (Nat.lt_succ_of_lt hc)]
  have hrooted : Rooted root ord (mixed ord (t + 1) before after) := by
    intro b hb
    by_cases hlt : ord b < t + 1
    · rw [mixed_of_lt hlt]
      exact hnext.rooted b hb
    · have h := hsound.rooted b hb
      rw [mixed_of_le (by omega)] at h
      rw [mixed_of_le (by omega)]
      exact h
  have hmoved : ∀ b, Reachable edge root b → b ≠ root → ord b = t →
      Meet root (mixed ord t before after) (preds b) (after b) := by
    intro b hb hne heq
    have hmeet := hnext.meets b hb hne
    rw [heq] at hmeet
    exact hmeet
  refine ⟨hrooted, ?_, ?_, ?_⟩
  · intro b hb hne
    by_cases heq : ord b = t
    · obtain ⟨p, hp, -⟩ := hordered.earlier b hb hne
      rw [mixed_of_lt (by omega)]
      exact hsound.reach_chain (hordered.reach_pred hb hp) ((hmoved b hb hne heq).chain hp)
    · have h := hsound.reach b hb hne
      by_cases hlt : ord b < t
      · rw [← hbelow b hlt]
        exact h
      · rw [mixed_of_le (by omega)] at h
        rw [mixed_of_le (by omega)]
        exact h
  · intro b hb hne
    by_cases heq : ord b = t
    · obtain ⟨p, hp, -⟩ := hordered.earlier b hb hne
      rw [mixed_of_lt (by omega)]
      exact hsound.late_step (hordered.reach_pred hb hp) (hordered.edge_pred hb hp)
        ((hmoved b hb hne heq).chain hp) (hnext.rooted b hne)
    · have h := hsound.late b hb hne
      by_cases hlt : ord b < t
      · rw [← hbelow b hlt]
        exact h
      · rw [mixed_of_le (by omega)] at h
        rw [mixed_of_le (by omega)]
        exact h
  · intro b
    induction hn : ord b using Nat.strong_induction_on generalizing b with
    | _ n ih =>
      intro d hb hdom
      have hchain := hsound.dominators b d hb hdom
      by_cases hd : d = b
      · rw [hd]
        exact .here b
      obtain ⟨hne, hup⟩ := hchain.of_ne hd
      obtain hlt | heq | hgt := Nat.lt_trichotomy (ord b) t
      · exact Chain.congr hsound.rooted (fun c hc => hbelow c (Nat.lt_of_le_of_lt hc hlt)) hchain
      · refine .up hne ?_
        rw [mixed_of_lt (by omega)]
        have hafter : Chain root (mixed ord t before after) (after b) d := by
          refine (hmoved b hb hne heq d).mpr ?_
          intro p hp
          exact hsound.dominators p d (hordered.reach_pred hb hp) (hdom.of_edge hd (hordered.edge_pred hb hp))
        refine Chain.congr hsound.rooted (fun c hc => hbelow c ?_) hafter
        have := hnext.rooted b hne
        omega
      · have hlate := hsound.late b hb hne
        have hreach := hsound.reach b hb hne
        have hlt := hsound.rooted b hne
        rw [mixed_of_le (by omega)] at hup hlate hreach hlt
        refine .up hne ?_
        rw [mixed_of_le (by omega)]
        by_cases hparent : d = before b
        · rw [hparent]
          exact .here _
        · -- `d` comes before the parent, so it dominates the parent too.
          have hearlier := Chain.ord_lt hsound.rooted hup hparent
          exact ih _ (hn ▸ hlt) _ rfl d hreach (hdom.of_late hearlier hlate)

theorem Next.sound {before after : α → α} (hnext : Next edge root ord preds before after)
    (hsound : Sound edge root ord before) (t : Nat) : Sound edge root ord (mixed ord t before after) := by
  induction t with
  | zero =>
    rw [mixed_zero]
    exact hsound
  | succ t ih => exact ih.advance hordered hnext

/-- A sweep moves a node to an ancestor that it has in the new tree. -/
theorem Next.descends {before after : α → α} (hnext : Next edge root ord preds before after)
    (hswept : Swept edge root ord preds before) {b : α} (hb : Reachable edge root b) (hne : b ≠ root) :
    Chain root after (before b) (after b) := by
  induction hn : ord b using Nat.strong_induction_on generalizing b with
  | _ n ih =>
    have hold := hswept.toSound
    have hshrinks : ∀ x, Reachable edge root x → ord x < n → ∀ y, Chain root after x y → Chain root before x y := by
      intro x
      induction hm : ord x using Nat.strong_induction_on generalizing x with
      | _ m ihm =>
        intro hx hlt y hchain
        by_cases hy : y = x
        · rw [hy]
          exact .here x
        · obtain ⟨hxne, hup⟩ := hchain.of_ne hy
          have hstep := ih (ord x) (hm ▸ hlt) hx hxne rfl
          have hsmall := hold.rooted x hxne
          exact .up hxne (ihm _ (hm ▸ hsmall) _ rfl (hold.reach x hx hxne) (by omega) y (hstep.trans hup))
    have hmixed : ∀ p, Reachable edge root p → ∀ y, Chain root (mixed ord n before after) p y →
        Chain root before p y := by
      intro p
      induction hm : ord p using Nat.strong_induction_on generalizing p with
      | _ m ihm =>
        intro hp y hchain
        have hmix := mixed_rooted hold.rooted hnext.rooted n
        by_cases hlt : ord p < n
        · refine hshrinks p hp hlt y (Chain.congr hmix (fun c hc => ?_) hchain)
          exact mixed_of_lt (Nat.lt_of_le_of_lt hc hlt)
        · by_cases hy : y = p
          · rw [hy]
            exact .here p
          · obtain ⟨hpne, hup⟩ := hchain.of_ne hy
            rw [mixed_of_le (Nat.not_lt.mp hlt)] at hup
            exact .up hpne (ihm _ (hm ▸ hold.rooted p hpne) _ rfl (hold.reach p hp hpne) y hup)
    have hkept : ∀ q, Reachable edge root q → ord q < n → ∀ a y, Chain root before q a → Chain root after q y →
        ord y ≤ ord a → Chain root after a y := by
      intro q
      induction hm : ord q using Nat.strong_induction_on generalizing q with
      | _ m ihm =>
        intro hq hlt a y ha hy hle
        by_cases haq : a = q
        · rw [haq]
          exact hy
        · have hsmall := Chain.ord_lt hold.rooted ha haq
          have hyq : y ≠ q := by
            intro heq
            rw [heq] at hle
            omega
          obtain ⟨hqne, hup⟩ := ha.of_ne haq
          have hstep := ih (ord q) (hm ▸ hlt) hq hqne rfl
          have hparent := hold.rooted q hqne
          exact ihm _ (hm ▸ hparent) _ rfl (hold.reach q hq hqne) (by omega) a y hup
            (hstep.trans (hy.of_ne hyq).2) hle
    obtain ⟨p, hp, hlt⟩ := hordered.earlier b hb hne
    have hreach := hordered.reach_pred hb hp
    have hmeet := hnext.meets b hb hne
    rw [hn] at hmeet hlt
    have hnew : Chain root after p (after b) := by
      refine Chain.congr (mixed_rooted hold.rooted hnext.rooted n) (fun c hc => ?_) (hmeet.chain hp)
      exact mixed_of_lt (Nat.lt_of_le_of_lt hc hlt)
    refine hkept p hreach hlt _ _ (hswept.shared b hb hne p hp (hn ▸ hlt)) hnew ?_
    refine hswept.lowest b _ hb hne fun q hq => ?_
    exact hmixed q (hordered.reach_pred hb hq) _ (hmeet.chain hq)

theorem Next.swept {before after : α → α} (hnext : Next edge root ord preds before after)
    (hswept : Swept edge root ord preds before) : Swept edge root ord preds after := by
  have hsound := hnext.sound hordered hswept.toSound
  have hcongr : ∀ t b d, ord b < t → Chain root (mixed ord t before after) b d → Chain root after b d := by
    intro t b d hlt hchain
    exact Chain.congr (hsound t).rooted (fun c hc => mixed_of_lt (Nat.lt_of_le_of_lt hc hlt)) hchain
  -- The chains that a node is placed by only get shorter in what is left of the sweep.
  have hshorter : ∀ t p, Reachable edge root p → ∀ y, Chain root after p y →
      Chain root (mixed ord t before after) p y := by
    intro t p
    induction hm : ord p using Nat.strong_induction_on generalizing p with
    | _ m ih =>
      intro hp y hchain
      by_cases hlt : ord p < t
      · refine Chain.congr hnext.rooted (fun c hc => ?_) hchain
        exact (mixed_of_lt (Nat.lt_of_le_of_lt hc hlt)).symm
      · by_cases hy : y = p
        · rw [hy]
          exact .here p
        · obtain ⟨hne, hup⟩ := hchain.of_ne hy
          refine .up hne ?_
          rw [mixed_of_le (Nat.not_lt.mp hlt)]
          exact ih _ (hm ▸ hswept.rooted p hne) _ rfl (hswept.reach p hp hne) y
            ((hnext.descends hordered hswept hp hne).trans hup)
  refine ⟨⟨hnext.rooted, ?_, ?_, ?_⟩, ?_, ?_⟩
  · intro b hb hne
    have h := (hsound (ord b + 1)).reach b hb hne
    rw [mixed_of_lt (Nat.lt_succ_self _)] at h
    exact h
  · intro b hb hne
    have h := (hsound (ord b + 1)).late b hb hne
    rw [mixed_of_lt (Nat.lt_succ_self _)] at h
    exact h
  · intro b d hb hdom
    exact hcongr _ b d (Nat.lt_succ_self _) ((hsound (ord b + 1)).dominators b d hb hdom)
  · intro b hb hne p hp hlt
    exact hcongr _ p _ hlt ((hnext.meets b hb hne).chain hp)
  · intro b d hb hne hall
    refine Chain.ord_le (hsound (ord b)).rooted ((hnext.meets b hb hne d).mpr ?_)
    exact fun p hp => hshorter (ord b) p (hordered.reach_pred hb hp) d (hall p hp)

/-- A sweep that moves a node moves some node up, and none down. -/
theorem Next.total_lt {before after : α → α} (hnext : Next edge root ord preds before after)
    (hswept : Swept edge root ord preds before) {nodes : List α}
    (hnodes : ∀ b ∈ nodes, Reachable edge root b ∧ b ≠ root) (hmoves : ∃ b ∈ nodes, after b ≠ before b) :
    nodes.total (fun b => ord (after b)) < nodes.total (fun b => ord (before b)) := by
  apply List.total_lt
  · intro b hb
    obtain ⟨hreach, hne⟩ := hnodes b hb
    exact Chain.ord_le hnext.rooted (hnext.descends hordered hswept hreach hne)
  · obtain ⟨b, hb, hmoved⟩ := hmoves
    obtain ⟨hreach, hne⟩ := hnodes b hb
    exact ⟨b, hb, Chain.ord_lt hnext.rooted (hnext.descends hordered hswept hreach hne) hmoved⟩

/-- Where a sweep moves nothing, the chains are exactly the dominators. -/
theorem dominates_iff_chain {parent : α → α} (hnext : Next edge root ord preds parent parent)
    (hswept : Swept edge root ord preds parent) {b d : α} (hb : Reachable edge root b) :
    Dominates edge root d b ↔ Chain root parent b d := by
  have hmixed : ∀ t, mixed ord t parent parent = parent := by
    intro t
    funext c
    exact ite_self _
  constructor
  · exact hswept.dominators b d hb
  · intro hchain l hwalk
    clear hb
    induction hwalk with
    | root =>
      rw [hchain.eq_root]
      exact List.mem_singleton_self root
    | @step a b l hwalk hedge ih =>
      by_cases hd : d = b
      · rw [hd]
        exact List.mem_cons_self
      · obtain ⟨hne, hup⟩ := hchain.of_ne hd
        have hb : Reachable edge root b := hwalk.reachable.step hedge
        have hmeet := hnext.meets b hb hne
        rw [hmixed] at hmeet
        have ha : a ∈ preds b := (hordered.mem_preds b a hb).mpr ⟨hedge, hwalk.reachable⟩
        exact List.mem_cons_of_mem _ (ih ((hmeet.chain ha).trans hup))

theorem immediate_parent {parent : α → α} (hnext : Next edge root ord preds parent parent)
    (hswept : Swept edge root ord preds parent) {b : α} (hb : Reachable edge root b) (hne : b ≠ root) :
    Immediate edge root (parent b) b := by
  refine ⟨?_, ?_, ?_⟩
  · intro heq
    have hlt := hswept.rooted b hne
    rw [heq] at hlt
    exact Nat.lt_irrefl _ hlt
  · exact (dominates_iff_chain hordered hnext hswept hb).mpr (.up hne (.here _))
  · intro e he hdom
    have hchain := (dominates_iff_chain hordered hnext hswept hb).mp hdom
    exact (dominates_iff_chain hordered hnext hswept (hswept.reach b hb hne)).mpr (hchain.of_ne he).2

end

end Sweeps

section Preorder

variable {α : Type}

/-- The nodes of a tree from one of them downwards, each in front of its children, as deep as the fuel goes. -/
def preorder (children : α → List α) : Nat → α → List α
  | 0, _ => []
  | fuel + 1, b => b :: (children b).flatMap (preorder children fuel)

/-- Lists that have every node of a tree once, below its parent. -/
structure Children (root : α) (ord : α → Nat) (parent : α → α) (node : α → Prop) (children : α → List α) : Prop where
  rooted : Rooted root ord parent
  closed : ∀ c, node c → c ≠ root → node (parent c)
  mem : ∀ b c, c ∈ children b ↔ node c ∧ c ≠ root ∧ parent c = b
  nodup : ∀ b, (children b).Nodup

variable {root : α} {ord : α → Nat} {parent : α → α} {node : α → Prop} {children : α → List α}

/-- A proper descendant comes below one of the children. -/
theorem Chain.last {b c : α} (hchain : Chain root parent c b) (hne : c ≠ b) :
    ∃ d, d ≠ root ∧ parent d = b ∧ Chain root parent c d := by
  induction hchain with
  | here => exact absurd rfl hne
  | @up c b hc _ ih =>
    by_cases hparent : parent c = b
    · exact ⟨c, hc, hparent, .here c⟩
    · obtain ⟨d, hd, hb, hchain⟩ := ih hparent
      exact ⟨d, hd, hb, .up hc hchain⟩

variable (hchildren : Children root ord parent node children)

include hchildren

theorem Children.chain {c d : α} (hc : node c) (hchain : Chain root parent c d) : node d := by
  induction hchain with
  | here => exact hc
  | up hb _ ih => exact ih (hchildren.closed _ hc hb)

theorem Children.ord_lt {b c : α} (hc : c ∈ children b) : ord b < ord c := by
  obtain ⟨-, hne, rfl⟩ := (hchildren.mem b c).mp hc
  exact hchildren.rooted c hne

/-- A preorder that is deep enough has a node and all that is below it. -/
theorem Children.mem_preorder {bound fuel : Nat} (hbound : ∀ c, node c → ord c ≤ bound) {b : α} (hb : node b)
    (hfuel : bound < ord b + fuel) (c : α) :
    c ∈ preorder children fuel b ↔ node c ∧ Chain root parent c b := by
  induction fuel generalizing b with
  | zero => exact absurd (hbound b hb) (by omega)
  | succ fuel ih =>
    have hbelow : ∀ d ∈ children b, (c ∈ preorder children fuel d ↔ node c ∧ Chain root parent c d) := by
      intro d hd
      have hlt := hchildren.ord_lt hd
      exact ih ((hchildren.mem b d).mp hd).1 (by omega)
    rw [preorder, List.mem_cons, List.mem_flatMap]
    constructor
    · intro hc
      obtain heq | ⟨d, hd, hc⟩ := hc
      · rw [heq]
        exact ⟨hb, .here b⟩
      · obtain ⟨hnode, hchain⟩ := (hbelow d hd).mp hc
        obtain ⟨-, hne, hparent⟩ := (hchildren.mem b d).mp hd
        have hstep : Chain root parent d b := .up hne (by rw [hparent]; exact .here b)
        exact ⟨hnode, hchain.trans hstep⟩
    · intro hc
      obtain ⟨hnode, hchain⟩ := hc
      by_cases heq : c = b
      · exact Or.inl heq
      · obtain ⟨d, hne, hparent, hchain'⟩ := hchain.last heq
        have hd : d ∈ children b := (hchildren.mem b d).mpr ⟨hchildren.chain hnode hchain', hne, hparent⟩
        exact Or.inr ⟨d, hd, (hbelow d hd).mpr ⟨hnode, hchain'⟩⟩

/-- Two children of a node have nothing below them in common. -/
theorem Children.apart {b c d x : α} (hc : c ∈ children b) (hd : d ∈ children b) (hne : c ≠ d)
    (hxc : Chain root parent x c) : ¬ Chain root parent x d := by
  intro hxd
  obtain ⟨-, -, hparent⟩ := (hchildren.mem b c).mp hc
  obtain ⟨-, -, hparent'⟩ := (hchildren.mem b d).mp hd
  have hcb := hchildren.ord_lt hc
  have hdb := hchildren.ord_lt hd
  obtain hle | hle := Nat.le_total (ord d) (ord c)
  · obtain ⟨-, hup⟩ := (Chain.linear hchildren.rooted hxc hxd hle).of_ne fun h => hne h.symm
    rw [hparent] at hup
    exact absurd (Chain.ord_le hchildren.rooted hup) (Nat.not_le.mpr hdb)
  · obtain ⟨-, hup⟩ := (Chain.linear hchildren.rooted hxd hxc hle).of_ne hne
    rw [hparent'] at hup
    exact absurd (Chain.ord_le hchildren.rooted hup) (Nat.not_le.mpr hcb)

theorem Children.nodup_preorder {bound fuel : Nat} (hbound : ∀ c, node c → ord c ≤ bound) {b : α} (hb : node b)
    (hfuel : bound < ord b + fuel) : (preorder children fuel b).Nodup := by
  induction fuel generalizing b with
  | zero => exact List.nodup_nil
  | succ fuel ih =>
    have hchild : ∀ d ∈ children b, node d ∧ bound < ord d + fuel := by
      intro d hd
      have hlt := hchildren.ord_lt hd
      exact ⟨((hchildren.mem b d).mp hd).1, by omega⟩
    have hmem : ∀ d ∈ children b, ∀ c ∈ preorder children fuel d, Chain root parent c d := by
      intro d hd c hc
      exact ((hchildren.mem_preorder hbound (hchild d hd).1 (hchild d hd).2 c).mp hc).2
    refine List.nodup_cons.mpr ⟨?_, List.nodup_flatMap.mpr ⟨?_, ?_⟩⟩
    · intro hself
      obtain ⟨d, hd, hbd⟩ := List.mem_flatMap.mp hself
      have hle := Chain.ord_le hchildren.rooted (hmem d hd b hbd)
      exact absurd (hchildren.ord_lt hd) (Nat.not_lt.mpr hle)
    · exact fun d hd => ih (hchild d hd).1 (hchild d hd).2
    · refine (hchildren.nodup b).imp_of_mem ?_
      intro c d hc hd hne x hxc hxd
      exact hchildren.apart hc hd hne (hmem c hc x hxc) (hmem d hd x hxd)

end Preorder

end Dominance
