import Mathlib.Data.List.Dedup
import ReverseSlop.Hyperion.Decompiler.Dominators

namespace hype

variable {defs worklist processed has_phi : List Nat}

namespace SSABuilder

/-- The walk of the runner from a predecessor of `b` up to the immediate dominator of `b`. -/
def frontier_walk (idom : Nat → Option Nat) (b : Nat) : Nat → Nat → (Nat → List Nat) → Nat → List Nat
  | 0, _, df => df
  | guard + 1, runner, df =>
    if some runner = idom b then df
    else
      match idom runner with
      | none => Function.update df runner (df runner ++ [b])
      | some next =>
        if next = runner then Function.update df runner (df runner ++ [b])
        else frontier_walk idom b guard next (Function.update df runner (df runner ++ [b]))

/-- What a block adds to the frontiers. -/
def frontier_block (func : PcodeFunc) (idom : Nat → Option Nat) (df : Nat → List Nat) (b : Nat) : Nat → List Nat :=
  if idom b = none then df
  else if (preds func b).length < 2 then df
  else (preds func b).foldl (fun df p => frontier_walk idom b (func.blocks.length + 1) p df) df

def compute_dom_frontiers (func : PcodeFunc) (idom : Nat → Option Nat) (d : Nat) : List Nat :=
  (((List.range func.blocks.length).foldl (frontier_block func idom) fun _ => []) d).mergeSort.dedup

/-- A block adds nothing but itself. -/
theorem frontier_walk_other {idom : Nat → Option Nat} {b x : Nat} (hx : x ≠ b) (guard runner : Nat)
    (df : Nat → List Nat) (d : Nat) : x ∈ frontier_walk idom b guard runner df d ↔ x ∈ df d := by
  have hadd : ∀ (df : Nat → List Nat) (runner : Nat),
      x ∈ Function.update df runner (df runner ++ [b]) d ↔ x ∈ df d := by
    intro df runner
    by_cases hd : d = runner
    · rw [hd, Function.update_self, List.mem_append, List.mem_singleton]
      exact or_iff_left hx
    · rw [Function.update_of_ne hd]
  induction guard generalizing runner df with
  | zero => rfl
  | succ guard ih =>
    rw [frontier_walk]
    split
    · rfl
    · cases idom runner with
      | none => exact hadd df runner
      | some next =>
        simp only
        split
        · exact hadd df runner
        · exact (ih _ _).trans (hadd df runner)

theorem frontier_block_other {func : PcodeFunc} {idom : Nat → Option Nat} {b x : Nat} (hx : x ≠ b)
    (df : Nat → List Nat) (d : Nat) : x ∈ frontier_block func idom df b d ↔ x ∈ df d := by
  rw [frontier_block]
  split
  · rfl
  · split
    · rfl
    · generalize preds func b = ps
      induction ps generalizing df with
      | nil => rfl
      | cons p ps ih => exact (ih _).trans (frontier_walk_other hx _ p df d)

section Walk

variable {func : PcodeFunc} {rpo : List Nat} {idom : Nat → Option Nat} (hsettled : Settled func rpo idom)

include hsettled

/-- The runner passes the chain of a predecessor as far as the immediate dominator. -/
theorem frontier_walk_spec {b stop : Nat} (hstop : idom b = some stop) {guard runner : Nat} (hrunner : runner ∈ rpo)
    (hchain : Dominance.Chain (entry_block func) (Dominance.above (entry_block func) idom) runner stop) (hguard : rpo.idxOf runner < guard)
    (df : Nat → List Nat) (d x : Nat) :
    x ∈ frontier_walk idom b guard runner df d ↔
      x ∈ df d ∨ x = b ∧ Dominance.Chain (entry_block func) (Dominance.above (entry_block func) idom) runner d ∧
        ¬ Dominance.Chain (entry_block func) (Dominance.above (entry_block func) idom) stop d := by
  induction guard generalizing runner df with
  | zero => exact absurd hguard (Nat.not_lt_zero _)
  | succ guard ih =>
    rw [frontier_walk]
    by_cases heq : runner = stop
    · rw [heq, if_pos hstop.symm]
      exact (or_iff_left fun h => h.2.2 h.2.1).symm
    · obtain ⟨hne, hup⟩ := hchain.of_ne fun h => heq h.symm
      obtain ⟨next, hnext⟩ := Option.isSome_iff_exists.mp (hsettled.all runner hrunner)
      obtain ⟨-, hnextsome, hless⟩ := hsettled.placed.up runner next hnext
      have hlt := hless hne
      obtain ⟨up, hnextup⟩ := Option.isSome_iff_exists.mp hnextsome
      have hnextmem := (hsettled.placed.up next up hnextup).1
      have hdiffer : next ≠ runner := by
        intro h
        rw [h] at hlt
        exact Nat.lt_irrefl _ hlt
      rw [Dominance.above_of_some hnext] at hup
      rw [if_neg fun h => heq (Option.some.inj (h.trans hstop)), hnext]
      simp only [hdiffer, if_false]
      rw [ih hnextmem hup (by omega)]
      have hself : ¬ Dominance.Chain (entry_block func) (Dominance.above (entry_block func) idom) stop runner := by
        intro hback
        have hle : rpo.idxOf runner ≤ rpo.idxOf stop := Dominance.Chain.ord_le hsettled.swept.rooted hback
        have hlt : rpo.idxOf stop < rpo.idxOf runner :=
          Dominance.Chain.ord_lt hsettled.swept.rooted hchain fun h => heq h.symm
        omega
      rw [Dominance.chain_iff hne, Dominance.above_of_some hnext]
      by_cases hd : d = runner
      · have hnone : ¬ Dominance.Chain (entry_block func) (Dominance.above (entry_block func) idom) next runner := by
          intro hback
          have hle : rpo.idxOf runner ≤ rpo.idxOf next := Dominance.Chain.ord_le hsettled.swept.rooted hback
          omega
        rw [hd, Function.update_self, List.mem_append, List.mem_singleton]
        tauto
      · rw [Function.update_of_ne hd]
        tauto

/-- From a predecessor that cannot be reached the runner goes nowhere. -/
theorem frontier_walk_unreachable {b runner guard : Nat} (hrunner : runner ∉ rpo) (df : Nat → List Nat) {d : Nat}
    (hd : d ∈ rpo) (x : Nat) : x ∈ frontier_walk idom b guard runner df d ↔ x ∈ df d := by
  have hnone : idom runner = none := by
    cases h : idom runner with
    | none => rfl
    | some up => exact absurd (hsettled.placed.up runner up h).1 hrunner
  have hne : d ≠ runner := fun h => hrunner (h ▸ hd)
  cases guard with
  | zero => rfl
  | succ guard =>
    rw [frontier_walk, hnone]
    split
    · rfl
    · simp only [Function.update_of_ne hne]

end Walk

section Frontier

variable {func : PcodeFunc} {rpo : List Nat} {idom : Nat → Option Nat} (hrpo : Rpo func rpo) (hlinked : Linked func)
  (hsettled : Settled func rpo idom)

include hrpo hlinked hsettled

theorem frontier_block_spec (df : Nat → List Nat) {b d : Nat} (hb : b ≠ entry_block func) (hd : d ∈ rpo) (x : Nat) :
    x ∈ frontier_block func idom df b d ↔
      x ∈ df d ∨ x = b ∧ b ∈ rpo ∧ Dominance.Frontier (Edge func) (entry_block func) d b := by
  rw [frontier_block]
  cases hstop : idom b with
  | none =>
    rw [if_pos rfl]
    refine (or_iff_left fun h => ?_).symm
    have hsome := hsettled.all b h.2.1
    rw [hstop] at hsome
    cases hsome
  | some stop =>
    rw [if_neg (Option.some_ne_none stop)]
    have hmem := (hsettled.placed.up b stop hstop).1
    have hparent : Dominance.above (entry_block func) idom b = stop := Dominance.above_of_some hstop
    have hmeet := Dominance.Settled.meet hrpo hsettled hmem hb
    rw [hparent] at hmeet
    have hbreach := (hrpo.mem b).mp hmem
    -- The frontier in the words of the tree.
    have hfrontier : Dominance.Frontier (Edge func) (entry_block func) d b ↔
        ∃ p ∈ preds func b, p ∈ rpo ∧ Dominance.Chain (entry_block func) (Dominance.above (entry_block func) idom) p d ∧
          ¬ Dominance.Chain (entry_block func) (Dominance.above (entry_block func) idom) stop d := by
      rw [Dominance.Frontier, hsettled.dominates_iff hrpo (Rpo.listed hrpo hlinked) hbreach, Dominance.chain_iff hb, hparent]
      have hnotself : ¬ Dominance.Chain (entry_block func) (Dominance.above (entry_block func) idom) stop b := by
        intro hback
        have hle : rpo.idxOf b ≤ rpo.idxOf stop := Dominance.Chain.ord_le hsettled.swept.rooted hback
        have hlt : rpo.idxOf stop < rpo.idxOf b := (hsettled.placed.up b stop hstop).2.2 hb
        omega
      constructor
      · intro h
        obtain ⟨⟨p, hedge, hp, hdom⟩, hend⟩ := h
        refine ⟨p, (hlinked.linked p b hedge.2).mpr hedge.1, (hrpo.mem p).mpr hp,
          (hsettled.dominates_iff hrpo (Rpo.listed hrpo hlinked) hp).mp hdom, fun hchain => hend ⟨Or.inr hchain, ?_⟩⟩
        intro heq
        exact hnotself (heq ▸ hchain)
      · intro h
        obtain ⟨p, hp, hprpo, hchain, hend⟩ := h
        have hlt := hrpo.bounded hlinked.nonempty hmem
        have hpreach := (hrpo.mem p).mp hprpo
        refine ⟨⟨p, ⟨(hlinked.linked p b hlt).mp hp, hlt⟩, hpreach,
          (hsettled.dominates_iff hrpo (Rpo.listed hrpo hlinked) hpreach).mpr hchain⟩, ?_⟩
        intro hdom
        exact hend (hdom.1.resolve_left hdom.2)
    have hfold : ∀ (ps : List Nat) (df : Nat → List Nat), (∀ p ∈ ps, p ∈ preds func b) →
        (x ∈ ps.foldl (fun df p => frontier_walk idom b (func.blocks.length + 1) p df) df d ↔
          x ∈ df d ∨ x = b ∧ ∃ p ∈ ps, p ∈ rpo ∧ Dominance.Chain (entry_block func) (Dominance.above (entry_block func) idom) p d ∧
            ¬ Dominance.Chain (entry_block func) (Dominance.above (entry_block func) idom) stop d) := by
      intro ps
      induction ps with
      | nil =>
        intro df _
        exact (or_iff_left fun h => by obtain ⟨p, hp, -⟩ := h.2; exact List.not_mem_nil hp).symm
      | cons p ps ih =>
        intro df hps
        rw [List.foldl_cons, ih _ fun q hq => hps q (List.mem_cons_of_mem _ hq)]
        by_cases hprpo : p ∈ rpo
        · have hchain : Dominance.Chain (entry_block func) (Dominance.above (entry_block func) idom) p stop :=
            hmeet.chain (List.mem_filter.mpr ⟨hps p List.mem_cons_self, decide_eq_true hprpo⟩)
          have hguard : rpo.idxOf p < func.blocks.length + 1 := by
            have hlt := List.idxOf_lt_length_iff.mpr hprpo
            have hle := length_le hrpo.nodup fun y hy => hrpo.bounded hlinked.nonempty hy
            omega
          rw [frontier_walk_spec hsettled hstop hprpo hchain hguard, List.exists_mem_cons_iff]
          tauto
        · rw [frontier_walk_unreachable hsettled hprpo df hd, List.exists_mem_cons_iff]
          tauto
    by_cases hfew : (preds func b).length < 2
    · rw [if_pos hfew]
      refine (or_iff_left fun h => ?_).symm
      obtain ⟨p, hp, hprpo, hchain, hend⟩ := hfrontier.mp h.2.2
      -- The only predecessor is the immediate dominator itself.
      refine hend ((hmeet d).mpr fun q hq => ?_)
      have heq : q = p := by
        obtain ⟨hq, -⟩ := List.mem_filter.mp hq
        cases hpreds : preds func b with
        | nil =>
          rw [hpreds] at hp
          exact absurd hp List.not_mem_nil
        | cons r rest =>
          rw [hpreds, List.length_cons] at hfew
          obtain rfl : rest = [] := List.length_eq_zero_iff.mp (by omega)
          rw [hpreds, List.mem_singleton] at hp hq
          rw [hp, hq]
      rw [heq]
      exact hchain
    · rw [if_neg hfew, hfold (preds func b) df fun _ h => h, hfrontier]
      tauto

/-- The frontiers are those of dominance, for every block but the entry. -/
theorem mem_compute_dom_frontiers {b d : Nat} (hb : b ≠ entry_block func) (hd : d ∈ rpo) :
    b ∈ compute_dom_frontiers func idom d ↔
      b ∈ rpo ∧ Dominance.Frontier (Edge func) (entry_block func) d b := by
  have hfold : ∀ (bs : List Nat) (df : Nat → List Nat),
      b ∈ bs.foldl (frontier_block func idom) df d ↔
        b ∈ df d ∨ b ∈ bs ∧ b ∈ rpo ∧ Dominance.Frontier (Edge func) (entry_block func) d b := by
    intro bs
    induction bs with
    | nil => simp
    | cons c bs ih =>
      intro df
      rw [List.foldl_cons, ih, List.mem_cons]
      by_cases hc : c = entry_block func
      · have hbc : b ≠ c := fun h => hb (h.trans hc)
        rw [frontier_block_other hbc]
        simp only [hbc, false_or]
      · rw [frontier_block_spec hrpo hlinked hsettled df hc hd]
        constructor
        · intro h
          obtain (h | ⟨rfl, h⟩) | h := h
          · exact Or.inl h
          · exact Or.inr ⟨Or.inl rfl, h⟩
          · exact Or.inr ⟨Or.inr h.1, h.2⟩
        · intro h
          obtain h | ⟨rfl | hbs, h⟩ := h
          · exact Or.inl (Or.inl h)
          · exact Or.inl (Or.inr ⟨rfl, h⟩)
          · exact Or.inr ⟨hbs, h⟩
  rw [compute_dom_frontiers, List.mem_dedup, List.mem_mergeSort, hfold, List.mem_range]
  constructor
  · intro h
    exact (h.resolve_left List.not_mem_nil).2
  · intro h
    exact Or.inr ⟨hrpo.bounded hlinked.nonempty h.1, h⟩

end Frontier

/-- What no block of a list adds is in no frontier. -/
theorem frontiers_other {func : PcodeFunc} {idom : Nat → Option Nat} {x : Nat} {bs : List Nat}
    (hbs : ∀ b ∈ bs, b = x → (preds func b).length < 2) (df : Nat → List Nat) (d : Nat) :
    x ∈ bs.foldl (frontier_block func idom) df d ↔ x ∈ df d := by
  induction bs generalizing df with
  | nil => rfl
  | cons b bs ih =>
    rw [List.foldl_cons, ih fun c hc => hbs c (List.mem_cons_of_mem _ hc)]
    by_cases hb : b = x
    · rw [frontier_block, if_pos (hbs b List.mem_cons_self hb), ite_self]
    · exact frontier_block_other (fun h => hb h.symm) df d

theorem compute_dom_frontiers_lt {func : PcodeFunc} {idom : Nat → Option Nat} {d f : Nat}
    (hf : f ∈ compute_dom_frontiers func idom d) : f < func.blocks.length := by
  by_contra hlt
  rw [compute_dom_frontiers, List.mem_dedup, List.mem_mergeSort, frontiers_other] at hf
  · exact absurd hf List.not_mem_nil
  · intro b hb heq
    exact absurd (heq ▸ List.mem_range.mp hb) hlt

/-- A block with a single predecessor, or none, is in no frontier. -/
theorem notMem_compute_dom_frontiers {func : PcodeFunc} {idom : Nat → Option Nat} {d f : Nat}
    (hfew : (preds func f).length < 2) : f ∉ compute_dom_frontiers func idom d := by
  rw [compute_dom_frontiers, List.mem_dedup, List.mem_mergeSort, frontiers_other fun b _ heq => heq ▸ hfew]
  exact List.not_mem_nil

/-- With the dominators that it has computed, the source finds the dominance frontiers of all reachable blocks, but for
the entry's place in them. -/
theorem compute_dom_frontiers_exact {func : PcodeFunc} (hlinked : Linked func) {fuel : Nat}
    (hfuel : func.blocks.length * func.blocks.length + 2 ≤ fuel) :
    ∃ idom, compute_dominators func fuel = some idom ∧
      ∀ b d, b ≠ entry_block func → Dominance.Reachable (Edge func) (entry_block func) b →
        Dominance.Reachable (Edge func) (entry_block func) d →
          (b ∈ compute_dom_frontiers func idom d ↔ Dominance.Frontier (Edge func) (entry_block func) d b) := by
  obtain ⟨idom, hidom, hsettled⟩ := compute_dominators_settled hlinked hfuel
  have hrpo := compute_reverse_postorder_spec hlinked.nonempty
  refine ⟨idom, hidom, ?_⟩
  intro b d hne hb hd
  rw [mem_compute_dom_frontiers hrpo hlinked hsettled hne ((hrpo.mem d).mpr hd)]
  exact and_iff_right ((hrpo.mem b).mpr hb)

theorem sign_func_frontiers :
    ∃ idom, compute_dominators sign_func 18 = some idom ∧
      ∀ b d, b ≠ entry_block sign_func → Dominance.Reachable (Edge sign_func) (entry_block sign_func) b →
        Dominance.Reachable (Edge sign_func) (entry_block sign_func) d →
          (b ∈ compute_dom_frontiers sign_func idom d ↔
            Dominance.Frontier (Edge sign_func) (entry_block sign_func) d b) :=
  compute_dom_frontiers_exact sign_func_linked (by decide)

/-- The slots of the stack that are variables, in the order of their keys, each with the node that it was met by. -/
abbrev stack_slots_t := List (UInt64 × Varnode)

def stack_slot (vn : Varnode) : UInt64 :=
  ((UInt32.ofInt vn.id).toUInt64 <<< 32) ^^^ (vn.offset &&& 0xFFFFFFFF)

/-- The key of a variable; a slot that is met for the first time gets the next one. -/
def var_key (slots : stack_slots_t) (vn : Varnode) : Int × stack_slots_t :=
  if vn.is_reg then (vn.id, slots)
  else if vn.is_temp then (1000 + vn.id, slots)
  else if vn.is_stack then
    match slots.findIdx? fun s => s.1 = stack_slot vn with
    | some i => (2000 + i, slots)
    | none => (2000 + slots.length, slots ++ [(stack_slot vn, vn)])
  else (-1, slots)

/-- What `insert_phis` collects first: the variables that are written, and where. -/
structure defs_t where
  slots : stack_slots_t := []
  defs : List (Int × Nat) := []

def collect_op (b : Nat) (s : defs_t) (op : PcodeInsn) : defs_t :=
  { slots := (var_key s.slots op.output).2
    defs := if (var_key s.slots op.output).1 ≥ 0 then s.defs ++ [((var_key s.slots op.output).1, b)] else s.defs }

def collect_defs (func : PcodeFunc) : defs_t :=
  func.blocks.zipIdx.foldl (fun s blk => blk.1.ops.foldl (collect_op blk.2) s) {}

def defs_t.all_vars (s : defs_t) : List Int := s.defs.map Prod.fst

def defs_t.def_blocks (s : defs_t) (v : Int) : List Nat := (s.defs.filter fun d => d.1 = v).map Prod.snd

/-- The blocks of a frontier that have no phi yet. -/
def fresh_blocks (has_phi : List Nat) : List Nat → List Nat
  | [] => []
  | f :: fs => if f ∈ has_phi then fresh_blocks has_phi fs else f :: fresh_blocks (f :: has_phi) fs

/-- The worklist of one variable; the blocks that get a phi stand in the order of their insertion. -/
def place_phis (df : Nat → List Nat) : Nat → List Nat → List Nat → List Nat → Option (List Nat)
  | _, [], _, has_phi => some has_phi
  | 0, _ :: _, _, _ => none
  | fuel + 1, d :: worklist, processed, has_phi =>
    if d ∈ processed then place_phis df fuel worklist processed has_phi
    else
      place_phis df fuel (worklist ++ fresh_blocks has_phi (df d)) (d :: processed)
        (has_phi ++ fresh_blocks has_phi (df d))

def phi_output (slots : stack_slots_t) (v : Int) : Varnode :=
  if v ≥ 2000 then (slots[(v - 2000).toNat]?.map Prod.snd).getD {}
  else { kind := if v < 1000 then .reg else .temp, id := if v < 1000 then v else v - 1000, size := 8 }

def phi (slots : stack_slots_t) (v : Int) (num_preds : Nat) : PcodeInsn :=
  { op := .copy, output := phi_output slots v, inputs := List.replicate num_preds (phi_output slots v), seq := -1 }

def insert_phi (slots : stack_slots_t) (v : Int) (blk : PcodeBlock) : PcodeBlock :=
  { blk with ops := phi slots v blk.preds.length :: blk.ops }

/-- The blocks that get a phi for a variable. -/
def phi_blocks (func : PcodeFunc) (df : Nat → List Nat) (v : Int) : Option (List Nat) :=
  place_phis df (((collect_defs func).def_blocks v).length + func.blocks.length)
    ((collect_defs func).def_blocks v) [] []

def insert_var (slots : stack_slots_t) (v : Int) (placed : List Nat) (blocks : List PcodeBlock) : List PcodeBlock :=
  placed.foldl (fun blocks f => blocks.modify f (insert_phi slots v)) blocks

/-- The phis of the variables, which come in the order of a hash map. -/
def insert_phis (func : PcodeFunc) (df : Nat → List Nat) (vars : List Int) : Option PcodeFunc :=
  (vars.foldlM
    (fun blocks v => (phi_blocks func df v).map fun placed => insert_var (collect_defs func).slots v placed blocks)
    func.blocks).map fun blocks => { func with blocks := blocks }

section Phis

theorem fresh_blocks_spec (has_phi fs : List Nat) :
    (fresh_blocks has_phi fs).Nodup ∧ (∀ f ∈ fresh_blocks has_phi fs, f ∈ fs ∧ f ∉ has_phi) ∧
      ∀ f ∈ fs, f ∈ has_phi ∨ f ∈ fresh_blocks has_phi fs := by
  induction fs generalizing has_phi with
  | nil => exact ⟨List.nodup_nil, fun f hf => absurd hf List.not_mem_nil, fun f hf => absurd hf List.not_mem_nil⟩
  | cons f fs ih =>
    rw [fresh_blocks]
    by_cases hf : f ∈ has_phi
    · rw [if_pos hf]
      obtain ⟨hnodup, hnew, hall⟩ := ih has_phi
      refine ⟨hnodup, fun g hg => ⟨List.mem_cons_of_mem _ (hnew g hg).1, (hnew g hg).2⟩, ?_⟩
      intro g hg
      obtain heq | hg := List.mem_cons.mp hg
      · exact Or.inl (heq ▸ hf)
      · exact hall g hg
    · rw [if_neg hf]
      obtain ⟨hnodup, hnew, hall⟩ := ih (f :: has_phi)
      refine ⟨List.nodup_cons.mpr ⟨fun h => (hnew f h).2 List.mem_cons_self, hnodup⟩, ?_, ?_⟩
      · intro g hg
        obtain heq | hg := List.mem_cons.mp hg
        · rw [heq]
          exact ⟨List.mem_cons_self, hf⟩
        · exact ⟨List.mem_cons_of_mem _ (hnew g hg).1, fun h => (hnew g hg).2 (List.mem_cons_of_mem _ h)⟩
      · intro g hg
        obtain heq | hg := List.mem_cons.mp hg
        · exact Or.inr (heq ▸ List.mem_cons_self)
        · obtain hmem | hmem := hall g hg
          · obtain heq | hmem := List.mem_cons.mp hmem
            · exact Or.inr (heq ▸ List.mem_cons_self)
            · exact Or.inl hmem
          · exact Or.inr (List.mem_cons_of_mem _ hmem)

/-- The blocks that the frontiers lead to from some blocks, in one step or more. -/
def Iterated (df : Nat → List Nat) (defs : List Nat) (b : Nat) : Prop :=
  ∃ d ∈ defs, Relation.TransGen (fun d f => f ∈ df d) d b

variable {df : Nat → List Nat} {n : Nat} (hdf : ∀ d, ∀ f ∈ df d, f < n)

/-- A worklist under way. -/
structure Placing (df : Nat → List Nat) (n : Nat) (defs worklist processed has_phi : List Nat) : Prop where
  closed : ∀ d ∈ processed, ∀ f ∈ df d, f ∈ has_phi
  kept : ∀ f ∈ has_phi, f ∈ worklist ∨ f ∈ processed
  starts : ∀ d ∈ defs, d ∈ worklist ∨ d ∈ processed
  known : ∀ d ∈ worklist, d ∈ defs ∨ d ∈ has_phi
  sound : ∀ f ∈ has_phi, Iterated df defs f
  nodup : has_phi.Nodup
  bounded : ∀ f ∈ has_phi, f < n

theorem Placing.skip {d : Nat}
    (h : Placing df n defs (d :: worklist) processed has_phi) (hd : d ∈ processed) :
    Placing df n defs worklist processed has_phi := by
  have hrest : ∀ x, x ∈ d :: worklist ∨ x ∈ processed → x ∈ worklist ∨ x ∈ processed := by
    intro x hx
    obtain hx | hx := hx
    · obtain heq | hx := List.mem_cons.mp hx
      · exact Or.inr (heq ▸ hd)
      · exact Or.inl hx
    · exact Or.inr hx
  exact ⟨h.closed, fun f hf => hrest f (h.kept f hf), fun x hx => hrest x (h.starts x hx),
    fun x hx => h.known x (List.mem_cons_of_mem _ hx), h.sound, h.nodup, h.bounded⟩

include hdf

theorem Placing.step {d : Nat}
    (h : Placing df n defs (d :: worklist) processed has_phi) :
    Placing df n defs (worklist ++ fresh_blocks has_phi (df d)) (d :: processed)
      (has_phi ++ fresh_blocks has_phi (df d)) := by
  obtain ⟨hnodup, hnew, hall⟩ := fresh_blocks_spec has_phi (df d)
  have hrest : ∀ x, x ∈ d :: worklist ∨ x ∈ processed →
      x ∈ worklist ++ fresh_blocks has_phi (df d) ∨ x ∈ d :: processed := by
    intro x hx
    obtain hx | hx := hx
    · obtain heq | hx := List.mem_cons.mp hx
      · exact Or.inr (heq ▸ List.mem_cons_self)
      · exact Or.inl (List.mem_append_left _ hx)
    · exact Or.inr (List.mem_cons_of_mem _ hx)
  refine ⟨?_, ?_, fun x hx => hrest x (h.starts x hx), ?_, ?_, ?_, ?_⟩
  · intro x hx f hf
    obtain heq | hx := List.mem_cons.mp hx
    · rw [heq] at hf
      exact List.mem_append.mpr (hall f hf)
    · exact List.mem_append_left _ (h.closed x hx f hf)
  · intro f hf
    obtain hf | hf := List.mem_append.mp hf
    · exact hrest f (h.kept f hf)
    · exact Or.inl (List.mem_append_right _ hf)
  · intro x hx
    obtain hx | hx := List.mem_append.mp hx
    · exact (h.known x (List.mem_cons_of_mem _ hx)).imp id (List.mem_append_left _)
    · exact Or.inr (List.mem_append_right _ hx)
  · intro f hf
    obtain hf | hf := List.mem_append.mp hf
    · exact h.sound f hf
    · have hstep := (hnew f hf).1
      obtain hd | hd := h.known d List.mem_cons_self
      · exact ⟨d, hd, Relation.TransGen.single hstep⟩
      · obtain ⟨e, he, hpath⟩ := h.sound d hd
        exact ⟨e, he, Relation.TransGen.tail hpath hstep⟩
  · refine List.nodup_append.mpr ⟨h.nodup, hnodup, ?_⟩
    intro x hx y hy heq
    exact (hnew y hy).2 (heq ▸ hx)
  · intro f hf
    obtain hf | hf := List.mem_append.mp hf
    · exact h.bounded f hf
    · exact hdf d f (hnew f hf).1

omit hdf in
theorem Placing.done {defs processed has_phi : List Nat} (h : Placing df n defs [] processed has_phi) (b : Nat) :
    b ∈ has_phi ↔ Iterated df defs b := by
  have hprocessed : ∀ x, x ∈ ([] : List Nat) ∨ x ∈ processed → x ∈ processed :=
    fun x hx => hx.resolve_left List.not_mem_nil
  constructor
  · exact h.sound b
  · intro hb
    obtain ⟨d, hd, hpath⟩ := hb
    induction hpath with
    | single hstep => exact h.closed d (hprocessed d (h.starts d hd)) _ hstep
    | tail _ hstep ih => exact h.closed _ (hprocessed _ (h.kept _ ih)) _ hstep

/-- The worklist runs empty, and what it has placed is all that the frontiers lead to. -/
theorem place_phis_spec {fuel : Nat}
    (h : Placing df n defs worklist processed has_phi) (hfuel : worklist.length + (n - has_phi.length) ≤ fuel) :
    ∃ placed, place_phis df fuel worklist processed has_phi = some placed ∧ placed.Nodup ∧
      ∀ b, b ∈ placed ↔ Iterated df defs b := by
  induction fuel generalizing worklist processed has_phi with
  | zero =>
    obtain rfl : worklist = [] := List.length_eq_zero_iff.mp (by omega)
    exact ⟨has_phi, rfl, h.nodup, h.done⟩
  | succ fuel ih =>
    cases worklist with
    | nil => exact ⟨has_phi, rfl, h.nodup, h.done⟩
    | cons d worklist =>
      rw [List.length_cons] at hfuel
      rw [place_phis]
      by_cases hd : d ∈ processed
      · rw [if_pos hd]
        exact ih (h.skip hd) (by omega)
      · rw [if_neg hd]
        have hstep := h.step hdf
        have hle := length_le hstep.nodup hstep.bounded
        refine ih hstep ?_
        rw [List.length_append] at hle ⊢
        rw [List.length_append]
        omega

end Phis

theorem phi_blocks_spec {func : PcodeFunc} {df : Nat → List Nat} (hdf : ∀ d, ∀ f ∈ df d, f < func.blocks.length)
    (v : Int) :
    ∃ placed, phi_blocks func df v = some placed ∧ placed.Nodup ∧
      ∀ b, b ∈ placed ↔ Iterated df ((collect_defs func).def_blocks v) b := by
  refine place_phis_spec hdf ⟨?_, ?_, fun d hd => Or.inl hd, fun d hd => Or.inl hd, ?_, List.nodup_nil, ?_⟩ ?_
  · exact fun d hd => absurd hd List.not_mem_nil
  · exact fun f hf => absurd hf List.not_mem_nil
  · exact fun f hf => absurd hf List.not_mem_nil
  · exact fun f hf => absurd hf List.not_mem_nil
  · rw [List.length_nil, Nat.sub_zero]

theorem getElem?_insert_var {slots : stack_slots_t} {v : Int} {placed : List Nat} (hnodup : placed.Nodup)
    (blocks : List PcodeBlock) (b : Nat) :
    (insert_var slots v placed blocks)[b]? =
      blocks[b]?.map fun blk => if b ∈ placed then insert_phi slots v blk else blk := by
  induction placed generalizing blocks with
  | nil => simp [insert_var]
  | cons f fs ih =>
    obtain ⟨hf, hfs⟩ := List.nodup_cons.mp hnodup
    show (insert_var slots v fs (blocks.modify f (insert_phi slots v)))[b]? = _
    rw [ih hfs, List.getElem?_modify]
    by_cases hb : f = b
    · rw [hb] at hf
      cases blocks[b]? <;> simp [hb, hf]
    · cases blocks[b]? <;> simp [hb, Ne.symm hb]

/-- The phis of a block, the last variable's first. -/
def phis_of (slots : stack_slots_t) (placed : Int → List Nat) (vars : List Int) (b num_preds : Nat) :
    List PcodeInsn :=
  (vars.reverse.filter fun v => b ∈ placed v).map fun v => phi slots v num_preds

def with_phis (slots : stack_slots_t) (placed : Int → List Nat) (vars : List Int) (b : Nat) (blk : PcodeBlock) :
    PcodeBlock := { blk with ops := phis_of slots placed vars b blk.preds.length ++ blk.ops }

/-- In front of its operations a block gets one phi for each variable, in some order, that one of the definitions
leads to it along the frontiers; each has an input for every predecessor. -/
theorem insert_phis_spec {func : PcodeFunc} {df : Nat → List Nat} (hdf : ∀ d, ∀ f ∈ df d, f < func.blocks.length)
    (vars : List Int) :
    ∃ (placed : Int → List Nat) (blocks : List PcodeBlock),
      insert_phis func df vars = some { func with blocks := blocks } ∧
      (∀ v b, b ∈ placed v ↔ Iterated df ((collect_defs func).def_blocks v) b) ∧
      ∀ b, blocks[b]? = func.blocks[b]?.map (with_phis (collect_defs func).slots placed vars b) := by
  have hplaced : ∀ v, ∃ placed, phi_blocks func df v = some placed ∧ placed.Nodup ∧
      ∀ b, b ∈ placed ↔ Iterated df ((collect_defs func).def_blocks v) b := phi_blocks_spec hdf
  choose placed hsome hnodup hmem using hplaced
  have hfold : ∀ (vars : List Int) (blocks : List PcodeBlock), ∃ blocks',
      vars.foldlM (fun blocks v =>
        (phi_blocks func df v).map fun placed => insert_var (collect_defs func).slots v placed blocks) blocks =
          some blocks' ∧
      ∀ b, blocks'[b]? = blocks[b]?.map (with_phis (collect_defs func).slots placed vars b) := by
    intro vars
    induction vars with
    | nil =>
      intro blocks
      refine ⟨blocks, rfl, fun b => ?_⟩
      exact Option.map_id'.symm
    | cons v vars ih =>
      intro blocks
      obtain ⟨blocks', hblocks', hops⟩ := ih (insert_var (collect_defs func).slots v (placed v) blocks)
      refine ⟨blocks', ?_, fun b => ?_⟩
      · rw [List.foldlM_cons, hsome v]
        exact hblocks'
      · rw [hops b, getElem?_insert_var (hnodup v), Option.map_map]
        congr 1
        funext blk
        by_cases hb : b ∈ placed v
        · simp [hb, insert_phi, with_phis, phis_of]
        · simp [hb, with_phis, phis_of]
  obtain ⟨blocks, hblocks, hops⟩ := hfold vars func.blocks
  exact ⟨placed, blocks, by rw [insert_phis, hblocks]; rfl, hmem, hops⟩

end SSABuilder

end hype
