import ReverseSlop.Hyperion.Decompiler.Rename

namespace hype

namespace SSABuilder

section Defs

/-- An operation as the lifter emits it, as long as it has used few temporaries: no phi, the versions still 0, and
the result in a register, in a temporary or nowhere. The lifter numbers the temporaries from 256 on without a bound,
but from 1000 on their variables, `1000 + id`, are also those of stack slots, `2000 + n`. -/
structure LiftedOp (op : PcodeInsn) : Prop where
  seq : op.seq ≠ -1
  numbered : ∀ vn ∈ op.inputs, NumberedNode vn
  fresh : ∀ vn ∈ op.inputs, (var_of vn).isSome = true → vn.offset = 0
  output : NumberedNode op.output
  unversioned : (var_of op.output).isSome = true → op.output.offset = 0
  unstacked : op.output.is_stack = false
  void : op.op.void = true → var_of op.output = none

def Lifted (func : PcodeFunc) : Prop := ∀ blk ∈ func.blocks, ∀ op ∈ blk.ops, LiftedOp op

instance (vn : Varnode) : Decidable (NumberedNode vn) :=
  inferInstanceAs (Decidable (vn.is_reg = true ∨ vn.is_temp = true → 0 ≤ vn.id ∧ vn.id < 1000))

theorem liftedOp_iff (op : PcodeInsn) :
    LiftedOp op ↔ op.seq ≠ -1 ∧ (∀ vn ∈ op.inputs, NumberedNode vn ∧ ((var_of vn).isSome = true → vn.offset = 0)) ∧
      NumberedNode op.output ∧ ((var_of op.output).isSome = true → op.output.offset = 0) ∧
      op.output.is_stack = false ∧ (op.op.void = true → var_of op.output = none) := by
  constructor
  · intro h
    exact ⟨h.seq, fun vn hvn => ⟨h.numbered vn hvn, h.fresh vn hvn⟩, h.output, h.unversioned, h.unstacked, h.void⟩
  · intro h
    obtain ⟨hseq, hinputs, houtput, hzero, hstack, hvoid⟩ := h
    exact ⟨hseq, fun vn hvn => (hinputs vn hvn).1, fun vn hvn => (hinputs vn hvn).2, houtput, hzero, hstack, hvoid⟩

instance (op : PcodeInsn) : Decidable (LiftedOp op) := decidable_of_iff _ (liftedOp_iff op).symm

instance (func : PcodeFunc) : Decidable (Lifted func) :=
  inferInstanceAs (Decidable (∀ blk ∈ func.blocks, ∀ op ∈ blk.ops, LiftedOp op))

theorem mem_ops_at {func : PcodeFunc} {b : Nat} {op : PcodeInsn} :
    op ∈ ops_at func b ↔ ∃ blk, func.blocks[b]? = some blk ∧ op ∈ blk.ops := by
  rw [ops_at]
  cases func.blocks[b]? with
  | none => simp
  | some blk => simp

theorem ops_at_of {func : PcodeFunc} {b : Nat} {blk : PcodeBlock} (hblk : func.blocks[b]? = some blk) :
    ops_at func b = blk.ops := by
  rw [ops_at, hblk]
  rfl

theorem collect_op_spec {b : Nat} {s : defs_t} {op : PcodeInsn} (hop : LiftedOp op) (hslots : s.slots = []) :
    collect_op b s op =
      { slots := [], defs := s.defs ++ ((var_of op.output).map fun v => (v, b)).toList } := by
  rw [collect_op, hslots]
  obtain ⟨k, hk, hkey⟩ | ⟨hnone, -⟩ := var_key_cases [] op.output
  · obtain ⟨hnonneg, -⟩ := var_of_bounds hop.output hk
    rw [hkey, hk, if_pos hnonneg]
    rfl
  · rw [var_key_none [] hnone hop.unstacked, hnone, if_neg (by decide)]
    simp

/-- What operations of one block write. -/
def op_defs (b : Nat) (ops : List PcodeInsn) : List (Int × Nat) :=
  ops.flatMap fun op => ((var_of op.output).map fun v => (v, b)).toList

theorem mem_op_defs {b c : Nat} {v : Int} {ops : List PcodeInsn} :
    (v, c) ∈ op_defs b ops ↔ b = c ∧ ∃ op ∈ ops, var_of op.output = some v := by
  rw [op_defs, List.mem_flatMap]
  simp only [Option.mem_toList, Option.map_eq_some_iff, Prod.mk.injEq]
  constructor
  · intro h
    obtain ⟨op, hop, w, hw, rfl, rfl⟩ := h
    exact ⟨rfl, op, hop, hw⟩
  · intro h
    obtain ⟨rfl, op, hop, hv⟩ := h
    exact ⟨op, hop, v, hv, rfl, rfl⟩

theorem collect_ops_spec {b : Nat} {s : defs_t} {ops : List PcodeInsn} (hops : ∀ op ∈ ops, LiftedOp op)
    (hslots : s.slots = []) :
    ops.foldl (collect_op b) s = { slots := [], defs := s.defs ++ op_defs b ops } := by
  induction ops generalizing s with
  | nil =>
    rw [List.foldl_nil, op_defs, List.flatMap_nil, List.append_nil, ← hslots]
  | cons op ops ih =>
    rw [List.foldl_cons, collect_op_spec (hops op List.mem_cons_self) hslots,
      ih (fun o ho => hops o (List.mem_cons_of_mem _ ho)) rfl, op_defs, op_defs, List.flatMap_cons, List.append_assoc]

variable {func : PcodeFunc} (hlifted : Lifted func)

include hlifted

/-- Of lifted operations no slots are met, and all variables that they write are found. -/
theorem collect_defs_spec :
    (collect_defs func).slots = [] ∧
      ∀ v b, (v, b) ∈ (collect_defs func).defs ↔ ∃ op ∈ ops_at func b, var_of op.output = some v := by
  have hblocks : ∀ (L : List (PcodeBlock × Nat)) (s : defs_t), (∀ x ∈ L, ∀ op ∈ x.1.ops, LiftedOp op) →
      s.slots = [] →
      (L.foldl (fun s blk => blk.1.ops.foldl (collect_op blk.2) s) s).slots = [] ∧
        ∀ v b, (v, b) ∈ (L.foldl (fun s blk => blk.1.ops.foldl (collect_op blk.2) s) s).defs ↔
          (v, b) ∈ s.defs ∨ ∃ blk, (blk, b) ∈ L ∧ ∃ op ∈ blk.ops, var_of op.output = some v := by
    intro L
    induction L with
    | nil => exact fun s _ hslots => ⟨hslots, fun v b => by simp⟩
    | cons x L ih =>
      intro s hall hslots
      rw [List.foldl_cons, collect_ops_spec (hall x List.mem_cons_self) hslots]
      obtain ⟨hslots', hdefs⟩ := ih { slots := [], defs := s.defs ++ op_defs x.2 x.1.ops }
        (fun y hy => hall y (List.mem_cons_of_mem _ hy)) rfl
      refine ⟨hslots', fun v b => ?_⟩
      rw [hdefs v b, List.mem_append, mem_op_defs, or_assoc]
      refine or_congr_right ?_
      constructor
      · intro h
        obtain ⟨rfl, hop⟩ | ⟨blk, hblk, hop⟩ := h
        · exact ⟨x.1, List.mem_cons_self, hop⟩
        · exact ⟨blk, List.mem_cons_of_mem _ hblk, hop⟩
      · intro h
        obtain ⟨blk, hblk, hop⟩ := h
        obtain heq | hblk := List.mem_cons.mp hblk
        · rw [← heq]
          exact Or.inl ⟨rfl, hop⟩
        · exact Or.inr ⟨blk, hblk, hop⟩
  obtain ⟨hslots, hdefs⟩ := hblocks func.blocks.zipIdx {} (fun x hx =>
    hlifted x.1 (List.mem_of_getElem? (List.mem_zipIdx_iff_getElem?.mp hx))) rfl
  refine ⟨hslots, fun v b => ?_⟩
  rw [collect_defs, hdefs v b]
  constructor
  · intro h
    obtain h | ⟨blk, hblk, op, hop, hv⟩ := h
    · exact absurd h List.not_mem_nil
    · exact ⟨op, mem_ops_at.mpr ⟨blk, List.mk_mem_zipIdx_iff_getElem?.mp hblk, hop⟩, hv⟩
  · intro h
    obtain ⟨op, hop, hv⟩ := h
    obtain ⟨blk, hblk, hop⟩ := mem_ops_at.mp hop
    exact Or.inr ⟨blk, List.mk_mem_zipIdx_iff_getElem?.mpr hblk, op, hop, hv⟩

theorem mem_def_blocks {v : Int} {b : Nat} :
    b ∈ (collect_defs func).def_blocks v ↔ ∃ op ∈ ops_at func b, var_of op.output = some v := by
  rw [← (collect_defs_spec hlifted).2 v b, defs_t.def_blocks]
  simp

theorem mem_all_vars {v : Int} :
    v ∈ (collect_defs func).all_vars ↔ ∃ b, ∃ op ∈ ops_at func b, var_of op.output = some v := by
  rw [defs_t.all_vars, List.mem_map]
  constructor
  · intro h
    obtain ⟨⟨w, b⟩, hmem, rfl⟩ := h
    exact ⟨b, ((collect_defs_spec hlifted).2 w b).mp hmem⟩
  · intro h
    obtain ⟨b, hop⟩ := h
    exact ⟨(v, b), ((collect_defs_spec hlifted).2 v b).mpr hop, rfl⟩

theorem all_vars_bounds {v : Int} (hv : v ∈ (collect_defs func).all_vars) : 0 ≤ v ∧ v < 2000 := by
  obtain ⟨b, op, hop, hv⟩ := (mem_all_vars hlifted).mp hv
  obtain ⟨blk, hblk, hop⟩ := mem_ops_at.mp hop
  exact var_of_bounds (hlifted blk (List.mem_of_getElem? hblk) op hop).output hv

end Defs

section Build

variable {func : PcodeFunc}

/-- What the construction comes to: where it has placed phis, and the visits of its renaming. -/
structure Built (func : PcodeFunc) (vars : List Int) (idom : Nat → Option Nat) (phis : Int → List Nat)
    (placed func' : PcodeFunc) (log : List visit_t) : Prop where
  settled : Settled func (compute_reverse_postorder func) idom
  iterated : ∀ v b, b ∈ phis v ↔ Iterated (compute_dom_frontiers func idom) ((collect_defs func).def_blocks v) b
  blocks : ∀ b, placed.blocks[b]? = func.blocks[b]?.map (with_phis [] phis vars b)
  renames : Renaming placed log func'.blocks
  nodup : (log.map visit_t.block).Nodup
  visited : ∀ b, b ∈ log.map visit_t.block ↔ b ∈ compute_reverse_postorder func
  counts : Consecutive placed 0 log func'.next_ssa
  start : ∀ e ∈ log, e.block = entry_block func → e.tops = (initial_names (collect_defs func)).tops
  inherits : ∀ e ∈ log, e.block ≠ entry_block func →
    ∃ e' ∈ log, idom e.block = some e'.block ∧ e.tops = e'.leaves placed

theorem dom_children_tree {idom : Nat → Option Nat} (hlinked : Linked func)
    (hsettled : Settled func (compute_reverse_postorder func) idom) :
    Dominance.Children (entry_block func) (compute_reverse_postorder func).idxOf (Dominance.above (entry_block func) idom)
      (· ∈ compute_reverse_postorder func) (dom_children func idom) := by
  have hrpo := compute_reverse_postorder_spec hlinked.nonempty
  refine ⟨hsettled.swept.rooted, ?_, ?_, fun b => hrpo.nodup.filter _⟩
  · intro c hc _
    obtain ⟨d, hd⟩ := Option.isSome_iff_exists.mp (hsettled.all c hc)
    rw [Dominance.above_of_some hd]
    obtain ⟨e, he⟩ := Option.isSome_iff_exists.mp (hsettled.placed.up c d hd).2.1
    exact (hsettled.placed.up d e he).1
  · intro b c
    rw [dom_children, List.mem_filter, decide_eq_true_iff]
    refine and_congr_right fun hc => and_congr_right fun _ => ?_
    obtain ⟨d, hd⟩ := Option.isSome_iff_exists.mp (hsettled.all c hc)
    rw [Dominance.above_of_some hd, hd, Option.some.injEq]

variable (hlifted : Lifted func)

include hlifted

theorem phi_output_plain {v : Int} (hv : v ∈ (collect_defs func).all_vars) :
    NumberedNode (phi_output [] v) ∧ (phi_output [] v).is_stack = false ∧ var_of (phi_output [] v) = some v := by
  obtain ⟨hnonneg, hlt⟩ := all_vars_bounds hlifted hv
  rw [phi_output, if_neg (Int.not_le.mpr hlt)]
  by_cases hreg : v < 1000
  · rw [if_pos hreg, if_pos hreg]
    exact ⟨fun _ => ⟨hnonneg, hreg⟩, rfl, rfl⟩
  · rw [if_neg hreg, if_neg hreg]
    refine ⟨fun _ => ⟨?_, ?_⟩, rfl, ?_⟩
    · show 0 ≤ v - 1000
      omega
    · show v - 1000 < 1000
      omega
    · exact congrArg some (by omega : 1000 + (v - 1000) = v)

/-- With the phis in front the operations are such that the renaming takes them. -/
theorem with_phis_plain {vars : List Int} (hvars : ∀ v ∈ vars, v ∈ (collect_defs func).all_vars)
    {phis : Int → List Nat} {placed : PcodeFunc}
    (hblocks : ∀ b, placed.blocks[b]? = func.blocks[b]?.map (with_phis [] phis vars b)) :
    Plain (collect_defs func).all_vars placed := by
  intro b blk hblk
  rw [hblocks b] at hblk
  obtain ⟨blk', hblk', rfl⟩ := Option.map_eq_some_iff.mp hblk
  have hops := hlifted blk' (List.mem_of_getElem? hblk')
  have hphi : ∀ op ∈ phis_of [] phis vars b blk'.preds.length,
      op.seq = -1 ∧ PlainOp (collect_defs func).all_vars op := by
    intro op hop
    obtain ⟨v, hv, rfl⟩ := List.mem_map.mp hop
    have hmem := hvars v (List.mem_reverse.mp (List.mem_of_mem_filter hv))
    obtain ⟨hnumbered, hstack, hvar⟩ := phi_output_plain hlifted hmem
    refine ⟨rfl, ⟨fun vn hvn => ?_, hnumbered, hstack, fun k hk => ?_⟩⟩
    · rw [List.eq_of_mem_replicate hvn]
      exact hnumbered
    · have heq : some v = some k := hvar.symm.trans hk
      exact Option.some.inj heq ▸ hmem
  refine ⟨fun op hop => ?_, ?_⟩
  · obtain hop | hop := List.mem_append.mp hop
    · exact (hphi op hop).2
    · have hlift := hops op hop
      refine ⟨hlift.numbered, hlift.output, hlift.unstacked, fun k hk => ?_⟩
      exact (mem_all_vars hlifted).mpr ⟨b, op, mem_ops_at.mpr ⟨blk', hblk', hop⟩, hk⟩
  · show ((phis_of [] phis vars b blk'.preds.length ++ blk'.ops).map PcodeInsn.seq).Pairwise _
    rw [List.map_append, List.pairwise_append]
    refine ⟨?_, ?_, ?_⟩
    · refine List.pairwise_of_forall_mem_list fun a ha _ _ _ => ?_
      obtain ⟨op, hop, rfl⟩ := List.mem_map.mp ha
      exact (hphi op hop).1
    · refine List.pairwise_of_forall_mem_list fun _ _ a ha heq => ?_
      obtain ⟨op, hop, rfl⟩ := List.mem_map.mp ha
      exact absurd heq (hops op hop).seq
    · intro a ha _ _ _
      obtain ⟨op, hop, rfl⟩ := List.mem_map.mp ha
      exact (hphi op hop).1

theorem build_spec (hlinked : Linked func) {vars : List Int} (hvars : ∀ v ∈ vars, v ∈ (collect_defs func).all_vars)
    {fuel : Nat} (hfuel : func.blocks.length * func.blocks.length + 2 ≤ fuel) :
    ∃ idom phis placed func' log, build vars fuel func = some func' ∧ Built func vars idom phis placed func' log := by
  obtain ⟨idom, hidom, hsettled⟩ := compute_dominators_settled hlinked hfuel
  have hrpo := compute_reverse_postorder_spec hlinked.nonempty
  have hfrontiers : ∀ d, ∀ f ∈ compute_dom_frontiers func idom d, f < func.blocks.length :=
    fun d f hf => compute_dom_frontiers_lt hf
  obtain ⟨phis, blocks, hinsert, hiterated, hblocks⟩ := insert_phis_spec hfrontiers vars
  rw [(collect_defs_spec hlifted).1] at hblocks
  have hlen : ∀ b, blocks.length ≤ b ↔ func.blocks.length ≤ b := by
    intro b
    rw [← List.getElem?_eq_none_iff, ← List.getElem?_eq_none_iff, hblocks, Option.map_eq_none_iff]
  have hlength : blocks.length = func.blocks.length :=
    Nat.le_antisymm ((hlen _).mpr (Nat.le_refl _)) ((hlen _).mp (Nat.le_refl _))
  let placed : PcodeFunc := { func with blocks := blocks }
  have hplain : Plain (collect_defs func).all_vars placed := with_phis_plain hlifted hvars hblocks
  have htree := dom_children_tree hlinked hsettled
  have hentry : entry_block func < placed.blocks.length := hlength.symm ▸ entry_block_lt hlinked.nonempty
  have hroot := (hrpo.mem (entry_block func)).mpr Dominance.reachable_root
  have hbound : ∀ c, (compute_reverse_postorder func).idxOf c ≤ func.blocks.length := fun c =>
    Nat.le_trans List.idxOf_le_length (length_le hrpo.nodup fun x hx => hrpo.bounded hlinked.nonempty hx)
  have hdeep : func.blocks.length <
      (compute_reverse_postorder func).idxOf (entry_block func) + (func.blocks.length + 1) := by omega
  have hnodup := htree.nodup_preorder (fun c _ => hbound c) hroot hdeep
  -- Nothing has been renamed yet.
  have hrenaming : Renaming placed [] blocks := by
    refine ⟨rfl, fun c blk hblk => ⟨[], ?_, ?_, ?_⟩⟩
    · rw [base_of_notMem fun e he => absurd he List.not_mem_nil]
      exact hblk
    · exact fun u hu => absurd hu List.not_mem_nil
    · exact fun e he => absurd he List.not_mem_nil
  have hstacked : Stacked (collect_defs func).all_vars (initial_names (collect_defs func)) := by
    refine ⟨fun k hk => if_neg fun hmem => ?_, fun k hk => ?_⟩
    · have := all_vars_bounds hlifted hmem
      omega
    · have hzero : (initial_names (collect_defs func)).var_stacks k = some [0] := if_pos hk
      rw [hzero]
      rfl
  obtain ⟨s', log, hrun, hrenames, -, -, hcounts, hvisited⟩ :=
    rename_block_spec hplain (dom_children func idom) (compute_reverse_postorder func).idxOf
      (fun b c hc => ⟨htree.ord_lt hc, hlength.symm ▸ hrpo.bounded hlinked.nonempty ((htree.mem b c).mp hc).1⟩)
      func.blocks.length (fun b _ => hbound b)
      (s := { blocks := blocks, names := initial_names (collect_defs func) }) hrenaming hstacked hentry
      hdeep hnodup
  have hblocks' : log.map visit_t.block =
      Dominance.preorder (dom_children func idom) (func.blocks.length + 1) (entry_block func) := by
    rw [hvisited.blocks, List.flatMap_singleton]
  refine ⟨idom, phis, placed, { placed with blocks := s'.blocks, next_ssa := s'.names.ssa_counter }, log, ?_,
    ⟨hsettled, hiterated, hblocks, hrenames, ?_, ?_, hcounts, ?_, ?_⟩⟩
  · rw [build, if_neg hlinked.nonempty, hidom]
    simp only [Option.bind_some, hinsert]
    rw [hrun]
    rfl
  · rw [hblocks']
    exact hnodup
  · intro b
    rw [hblocks', htree.mem_preorder (fun c _ => hbound c) hroot hdeep]
    exact and_iff_left (Dominance.chain_root hsettled.swept.rooted b)
  · intro e he heq
    obtain ⟨-, htops⟩ | ⟨e', -, hchild, -⟩ := hvisited.inherits e he
    · exact htops
    · exact absurd heq ((htree.mem _ _).mp hchild).2.1
  · intro e he hne
    obtain ⟨hroot, -⟩ | ⟨e', he', hchild, htops⟩ := hvisited.inherits e he
    · exact absurd (List.mem_singleton.mp hroot) hne
    · rw [dom_children, List.mem_filter, decide_eq_true_iff] at hchild
      exact ⟨e', he', hchild.2.2, htops⟩

/-- Phis stand exactly where they are needed: a variable that only reachable blocks write gets one, with an input for
each predecessor, in the blocks of the iterated dominance frontier of its definitions. -/
theorem phis_at_iterated_frontiers (hlinked : Linked func) (hentry : preds func (entry_block func) = [])
    (vars : List Int) {fuel : Nat} (hfuel : func.blocks.length * func.blocks.length + 2 ≤ fuel) :
    ∃ idom phis blocks, compute_dominators func fuel = some idom ∧
      insert_phis func (compute_dom_frontiers func idom) vars = some { func with blocks := blocks } ∧
      (∀ b, blocks[b]? = func.blocks[b]?.map (with_phis [] phis vars b)) ∧
      ∀ v, (∀ b, ∀ op ∈ ops_at func b, var_of op.output = some v →
          Dominance.Reachable (Edge func) (entry_block func) b) →
        ∀ b, b ∈ phis v ↔ ∃ d, (∃ op ∈ ops_at func d, var_of op.output = some v) ∧
          Relation.TransGen (Dominance.Frontier (Edge func) (entry_block func)) d b := by
  obtain ⟨idom, hidom, hsettled⟩ := compute_dominators_settled hlinked hfuel
  have hrpo := compute_reverse_postorder_spec hlinked.nonempty
  have hfrontiers : ∀ d, ∀ f ∈ compute_dom_frontiers func idom d, f < func.blocks.length :=
    fun d f hf => compute_dom_frontiers_lt hf
  obtain ⟨phis, blocks, hinsert, hiterated, hblocks⟩ := insert_phis_spec hfrontiers vars
  rw [(collect_defs_spec hlifted).1] at hblocks
  refine ⟨idom, phis, blocks, hidom, hinsert, hblocks, fun v hreach b => ?_⟩
  -- On reachable blocks the computed frontiers are the frontiers; no edge leads to the entry.
  have hstep : ∀ d f, Dominance.Reachable (Edge func) (entry_block func) d →
      (f ∈ compute_dom_frontiers func idom d ↔ Dominance.Frontier (Edge func) (entry_block func) d f) := by
    intro d f hd
    by_cases hf : f = entry_block func
    · have hlt := entry_block_lt hlinked.nonempty
      refine iff_of_false ?_ fun h => ?_
      · rw [hf]
        refine notMem_compute_dom_frontiers ?_
        rw [hentry]
        exact Nat.succ_pos 1
      · obtain ⟨⟨p, hedge, -⟩, -⟩ := h
        have hmem := (hlinked.linked p f hedge.2).mpr hedge.1
        rw [hf, hentry] at hmem
        exact List.not_mem_nil hmem
    · rw [mem_compute_dom_frontiers hrpo hlinked hsettled hf ((hrpo.mem d).mpr hd)]
      refine and_iff_right_of_imp fun h => ?_
      obtain ⟨⟨p, hedge, hp, -⟩, -⟩ := h
      exact (hrpo.mem f).mpr (hp.step hedge)
  have hclosed : ∀ d f, Dominance.Reachable (Edge func) (entry_block func) d →
      Dominance.Frontier (Edge func) (entry_block func) d f → Dominance.Reachable (Edge func) (entry_block func) f := by
    intro d f _ h
    obtain ⟨⟨p, hedge, hp, -⟩, -⟩ := h
    exact hp.step hedge
  have hpaths : ∀ d, Dominance.Reachable (Edge func) (entry_block func) d → ∀ f,
      Relation.TransGen (fun d f => f ∈ compute_dom_frontiers func idom d) d f ↔
        Relation.TransGen (Dominance.Frontier (Edge func) (entry_block func)) d f := by
    intro d hd f
    constructor
    · intro hpath
      induction hpath using Relation.TransGen.head_induction_on with
      | single h => exact .single ((hstep _ _ hd).mp h)
      | head h _ ih =>
        have hfirst := (hstep _ _ hd).mp h
        exact .head hfirst (ih (hclosed _ _ hd hfirst))
    · intro hpath
      induction hpath using Relation.TransGen.head_induction_on with
      | single h => exact .single ((hstep _ _ hd).mpr h)
      | head h _ ih => exact .head ((hstep _ _ hd).mpr h) (ih (hclosed _ _ hd h))
  rw [hiterated v b, Iterated]
  refine exists_congr fun d => ?_
  rw [mem_def_blocks hlifted]
  refine and_congr_right fun hdef => ?_
  obtain ⟨op, hop, hvar⟩ := hdef
  exact hpaths d (hreach d op hop hvar) b

omit hlifted in
theorem sign_func_phis :
    ∃ idom phis blocks, compute_dominators sign_func 18 = some idom ∧
      insert_phis sign_func (compute_dom_frontiers sign_func idom) [0] = some { sign_func with blocks := blocks } ∧
      (∀ b, blocks[b]? = sign_func.blocks[b]?.map (with_phis [] phis [0] b)) ∧
      ∀ v, (∀ b, ∀ op ∈ ops_at sign_func b, var_of op.output = some v →
          Dominance.Reachable (Edge sign_func) (entry_block sign_func) b) →
        ∀ b, b ∈ phis v ↔ ∃ d, (∃ op ∈ ops_at sign_func d, var_of op.output = some v) ∧
          Relation.TransGen (Dominance.Frontier (Edge sign_func) (entry_block sign_func)) d b :=
  phis_at_iterated_frontiers (by decide) sign_func_linked (by decide) [0] (by decide)

end Build

section Args

theorem renamed_idem (tops : tops_t) (vn : Varnode) : renamed tops (renamed tops vn) = renamed tops vn := by
  have hvar : var_of (renamed tops vn) = var_of vn :=
    var_of_congr (renamed_keeps tops vn).1 (renamed_keeps tops vn).2.1
  rw [renamed, hvar]
  conv_rhs => rw [renamed]
  cases hver : (var_of vn).bind tops with
  | none =>
    simp only
    rw [renamed, hver]
  | some ver =>
    simp only
    rw [renamed, hver]

/-- The updates change nothing but the inputs of phis. -/
theorem apply_arg_keeps (args : List (Nat × tops_t)) (op : PcodeInsn) :
    (apply_arg args op).op = op.op ∧ (apply_arg args op).output = op.output ∧ (apply_arg args op).seq = op.seq ∧
      (op.seq ≠ -1 → apply_arg args op = op) := by
  induction args generalizing op with
  | nil => exact ⟨rfl, rfl, rfl, fun _ => rfl⟩
  | cons u args ih =>
    rw [apply_arg, List.foldl_cons, ← apply_arg]
    by_cases hphi : op.seq = -1
    · rw [if_pos hphi]
      obtain ⟨hkind, houtput, hseq, -⟩ := ih { op with inputs := op.inputs.modify u.1 (renamed u.2) }
      exact ⟨hkind, houtput, hseq, fun h => absurd hphi h⟩
    · rw [if_neg hphi]
      exact ih op

/-- An input of a phi that all updates of its place agree on. -/
theorem apply_arg_inputs {args : List (Nat × tops_t)} (op : PcodeInsn) (hphi : op.seq = -1) (j : Nat) :
    ((∀ u ∈ args, u.1 ≠ j) → (apply_arg args op).inputs[j]? = op.inputs[j]?) ∧
      ∀ tops, (j, tops) ∈ args → (∀ u ∈ args, u.1 = j → u.2 = tops) →
        (apply_arg args op).inputs[j]? = op.inputs[j]?.map (renamed tops) := by
  induction args generalizing op with
  | nil => exact ⟨fun _ => rfl, fun _ h => absurd h List.not_mem_nil⟩
  | cons u args ih =>
    rw [apply_arg, List.foldl_cons, if_pos hphi, ← apply_arg]
    obtain ⟨hnone, hsome⟩ := ih { op with inputs := op.inputs.modify u.1 (renamed u.2) } hphi
    have hmodify : (op.inputs.modify u.1 (renamed u.2))[j]? =
        op.inputs[j]?.map fun vn => if u.1 = j then renamed u.2 vn else vn := List.getElem?_modify _ _ _ _
    refine ⟨fun hall => ?_, fun tops hmem hall => ?_⟩
    · rw [hnone fun u' hu' => hall u' (List.mem_cons_of_mem _ hu'), hmodify]
      simp only [if_neg (hall u List.mem_cons_self), Option.map_id']
    · have hall' : ∀ u' ∈ args, u'.1 = j → u'.2 = tops := fun u' hu' => hall u' (List.mem_cons_of_mem _ hu')
      by_cases hu : u.1 = j
      · have htops := hall u List.mem_cons_self hu
        by_cases hagain : (j, tops) ∈ args
        · rw [hsome tops hagain hall', hmodify, Option.map_map]
          refine congrArg (fun f => op.inputs[j]?.map f) (funext fun vn => ?_)
          show renamed tops (if u.1 = j then renamed u.2 vn else vn) = _
          rw [if_pos hu, htops, renamed_idem]
        · have hother : ∀ u' ∈ args, u'.1 ≠ j := by
            intro u' hu' hj
            refine hagain ?_
            rw [← hj, ← hall' u' hu' hj]
            exact hu'
          rw [hnone hother, hmodify]
          simp only [if_pos hu, htops]
      · obtain heq | hmem := List.mem_cons.mp hmem
        · exact absurd (congrArg Prod.fst heq).symm hu
        · rw [hsome tops hmem hall', hmodify]
          simp only [if_neg hu, Option.map_id']

end Args

section Versions

/-- The versions that operations give to their results. -/
def versions_of (ops : List PcodeInsn) : List UInt64 :=
  ops.flatMap fun op => ((var_of op.output).map fun _ => op.output.offset).toList

theorem versions_of_apply_args (args : List (Nat × tops_t)) (ops : List PcodeInsn) :
    versions_of (apply_args args ops) = versions_of ops := by
  rw [apply_args_eq_map, versions_of, versions_of, List.flatMap_map]
  refine List.flatMap_congr fun op _ => ?_
  rw [(apply_arg_keeps args op).2.1]

theorem spec_op_none (tops : tops_t) (count : Nat) {op : PcodeInsn} (hvar : var_of op.output = none) :
    (spec_op tops count op).1.output = op.output ∧ (spec_op tops count op).2 = (tops, count) := by
  rw [spec_op, hvar]
  exact ⟨rfl, rfl⟩

theorem spec_op_some (tops : tops_t) (count : Nat) {op : PcodeInsn} {v : Int} (hvar : var_of op.output = some v) :
    (spec_op tops count op).1.output = { op.output with offset := UInt64.ofNat (count + 1) } ∧
      (spec_op tops count op).2 = (Function.update tops v (some (count + 1)), count + 1) := by
  rw [spec_op, hvar]
  exact ⟨rfl, rfl⟩

/-- Each result of a block gets the next number. -/
theorem versions_of_spec_ops (tops : tops_t) (count : Nat) (ops : List PcodeInsn) :
    ∃ k, (spec_ops tops count ops).2.2 = count + k ∧
      versions_of (spec_ops tops count ops).1 = (List.range' (count + 1) k).map UInt64.ofNat := by
  induction ops generalizing tops count with
  | nil => exact ⟨0, rfl, rfl⟩
  | cons op ops ih =>
    obtain ⟨k, hlast, hversions⟩ := ih (spec_op tops count op).2.1 (spec_op tops count op).2.2
    have hcons : versions_of (spec_ops tops count (op :: ops)).1 =
        versions_of [(spec_op tops count op).1] ++
          versions_of (spec_ops (spec_op tops count op).2.1 (spec_op tops count op).2.2 ops).1 := by
      rw [spec_ops, versions_of, versions_of, versions_of, List.flatMap_cons, List.flatMap_singleton]
    rw [hcons, hversions, versions_of, List.flatMap_singleton]
    cases hvar : var_of op.output with
    | none =>
      obtain ⟨houtput, hnext⟩ := spec_op_none tops count hvar
      rw [hnext] at hlast ⊢
      refine ⟨k, ?_, ?_⟩
      · rw [spec_ops, hnext]
        exact hlast
      · rw [houtput, hvar]
        rfl
    | some v =>
      obtain ⟨houtput, hnext⟩ := spec_op_some tops count hvar
      rw [hnext] at hlast ⊢
      have hsame : var_of { op.output with offset := UInt64.ofNat (count + 1) } = some v := hvar
      refine ⟨k + 1, ?_, ?_⟩
      · rw [spec_ops, hnext]
        simp only [hlast]
        omega
      · rw [houtput, hsame, List.range'_succ]
        rfl

theorem Consecutive.versions {placed : PcodeFunc} {log : List visit_t} {count last : Nat}
    (h : Consecutive placed count log last) :
    ∃ k, last = count + k ∧
      log.flatMap (fun e => versions_of (e.done placed).1) = (List.range' (count + 1) k).map UInt64.ofNat := by
  induction log generalizing count with
  | nil => exact ⟨0, h.symm, rfl⟩
  | cons e log ih =>
    obtain ⟨hcount, hrest⟩ := h
    obtain ⟨k, hk, hversions⟩ := versions_of_spec_ops e.tops e.count (ops_at placed e.block)
    obtain ⟨k', hlast, hversions'⟩ := ih hrest
    have hstep : e.last placed = count + k := by rw [← hcount, ← hk]; rfl
    refine ⟨k + k', by omega, ?_⟩
    rw [List.flatMap_cons, hversions', visit_t.done, hversions, hcount, hstep, ← List.map_append,
      show count + k + 1 = count + 1 + 1 * k by omega, List.range'_append]

theorem base_of_mem {log : List visit_t} (hnodup : (log.map visit_t.block).Nodup) {e : visit_t} (he : e ∈ log)
    (ops : List PcodeInsn) : base log e.block ops = (spec_ops e.tops e.count ops).1 := by
  obtain ⟨front, back, rfl⟩ := List.append_of_mem he
  have hfront : ∀ e' ∈ front, e'.block ≠ e.block := by
    rw [List.map_append, List.map_cons] at hnodup
    intro e' he' heq
    exact (List.nodup_append.mp hnodup).2.2 _ (List.mem_map_of_mem he') _ List.mem_cons_self heq
  have hfind : ((e :: back).find? fun e' => e'.block = e.block) = some e := List.find?_cons_of_pos (decide_eq_true rfl)
  rw [base_append_of_notMem hfront, base, hfind]

variable {func placed func' : PcodeFunc} {vars : List Int} {idom : Nat → Option Nat} {phis : Int → List Nat}
  {log : List visit_t}

/-- The operations of a block that has been visited, and the inputs of its phis. -/
theorem Built.ops (h : Built func vars idom phis placed func' log) (hlinked : Linked func) {e : visit_t} (he : e ∈ log) :
    ∃ blk args, func.blocks[e.block]? = some blk ∧ e.block < func.blocks.length ∧
      ops_at placed e.block = (with_phis [] phis vars e.block blk).ops ∧
      func'.blocks[e.block]? = some { blk with ops := apply_args args (e.done placed).1 } ∧
      Updates placed log e.block blk args := by
  have hrpo := compute_reverse_postorder_spec hlinked.nonempty
  have hlt := hrpo.bounded hlinked.nonempty ((h.visited e.block).mp (List.mem_map_of_mem he))
  have hblk := List.getElem?_eq_getElem hlt
  have hplaced := h.blocks e.block
  rw [hblk, Option.map_some] at hplaced
  have hops : ops_at placed e.block = (with_phis [] phis vars e.block func.blocks[e.block]).ops := by
    rw [ops_at, hplaced]
    rfl
  obtain ⟨args, hargs, hupdates⟩ := h.renames.2 e.block _ hplaced
  rw [base_of_mem h.nodup he] at hargs
  refine ⟨func.blocks[e.block], args, hblk, hlt, hops, ?_, ⟨hupdates.sound, hupdates.complete⟩⟩
  rw [visit_t.done, hops]
  exact hargs

/-- The construction numbers the results of all reachable blocks from 1 on, each number for one result. -/
theorem build_assigns_once (hlifted : Lifted func) (hlinked : Linked func)
    (hvars : ∀ v ∈ vars, v ∈ (collect_defs func).all_vars) {fuel : Nat}
    (hfuel : func.blocks.length * func.blocks.length + 2 ≤ fuel) :
    ∃ (func' : PcodeFunc) (order : List Nat), build vars fuel func = some func' ∧ order.Nodup ∧
      (∀ b, b ∈ order ↔ Dominance.Reachable (Edge func) (entry_block func) b) ∧
      order.flatMap (fun b => versions_of (ops_at func' b)) = (List.range' 1 func'.next_ssa).map UInt64.ofNat := by
  obtain ⟨idom, phis, placed, func', log, hrun, hbuilt⟩ := build_spec hlifted hlinked hvars hfuel
  have hrpo := compute_reverse_postorder_spec hlinked.nonempty
  obtain ⟨k, hlast, hversions⟩ := hbuilt.counts.versions
  refine ⟨func', log.map visit_t.block, hrun, hbuilt.nodup, fun b => (hbuilt.visited b).trans (hrpo.mem b), ?_⟩
  rw [List.flatMap_map, hlast, Nat.zero_add, ← Nat.zero_add 1, ← hversions]
  refine List.flatMap_congr fun e he => ?_
  obtain ⟨blk, args, -, -, -, hblk, -⟩ := hbuilt.ops hlinked he
  rw [ops_at, hblk]
  exact versions_of_apply_args args _

theorem sign_func_assigned_once :
    ∃ (func' : PcodeFunc) (order : List Nat),
      build (collect_defs sign_func).all_vars.dedup 18 sign_func = some func' ∧ order.Nodup ∧
      (∀ b, b ∈ order ↔ Dominance.Reachable (Edge sign_func) (entry_block sign_func) b) ∧
      order.flatMap (fun b => versions_of (ops_at func' b)) = (List.range' 1 func'.next_ssa).map UInt64.ofNat :=
  build_assigns_once (by decide) sign_func_linked (fun _ => List.mem_dedup.mp) (by decide)

end Versions

section Uses

/-- The operation at a place gives a version to a variable. -/
def Defines (ops : List PcodeInsn) (v : Int) (ver : UInt64) (i : Nat) : Prop :=
  ∃ op, ops[i]? = some op ∧ var_of op.output = some v ∧ op.output.offset = ver

theorem Defines.of_take {ops : List PcodeInsn} {v : Int} {ver : UInt64} {i j : Nat} (h : Defines (ops.take i) v ver j) :
    j < i ∧ Defines ops v ver j := by
  obtain ⟨op, hop, hrest⟩ := h
  by_cases hlt : j < i
  · rw [List.getElem?_take_of_lt hlt] at hop
    exact ⟨hlt, op, hop, hrest⟩
  · rw [List.getElem?_eq_none] at hop
    · cases hop
    · rw [List.length_take]
      omega

theorem spec_op_inputs (tops : tops_t) (count : Nat) {op : PcodeInsn} (hseq : op.seq ≠ -1) :
    (spec_op tops count op).1.inputs = op.inputs.map (renamed tops) := by
  rw [spec_op, if_pos hseq]
  cases var_of op.output <;> rfl

theorem phi_output_offset (v : Int) : (phi_output [] v).offset = 0 := by
  rw [phi_output]
  split <;> rfl

theorem spec_ops_getElem? (tops : tops_t) (count : Nat) (ops : List PcodeInsn) (i : Nat) :
    (spec_ops tops count ops).1[i]? = ops[i]?.map fun op =>
      (spec_op (spec_ops tops count (ops.take i)).2.1 (spec_ops tops count (ops.take i)).2.2 op).1 := by
  induction ops generalizing tops count i with
  | nil => rfl
  | cons op ops ih =>
    cases i with
    | zero => rfl
    | succ i => exact ih _ _ i

theorem spec_ops_take (tops : tops_t) (count : Nat) (ops : List PcodeInsn) (i : Nat) :
    (spec_ops tops count (ops.take i)).1 = (spec_ops tops count ops).1.take i := by
  induction ops generalizing tops count i with
  | nil =>
    rw [List.take_nil]
    exact List.take_nil.symm
  | cons op ops ih =>
    cases i with
    | zero => rfl
    | succ i => exact congrArg _ (ih _ _ i)

/-- A version in force behind operations is one that was in force before, or one of theirs. -/
theorem spec_ops_defines (tops : tops_t) (count : Nat) {ops : List PcodeInsn} {v : Int} {ver : Nat}
    (hver : (spec_ops tops count ops).2.1 v = some ver) :
    tops v = some ver ∨ ∃ i, Defines (spec_ops tops count ops).1 v (UInt64.ofNat ver) i := by
  induction ops generalizing tops count with
  | nil => exact Or.inl hver
  | cons op ops ih =>
    obtain hver | ⟨i, hi⟩ := ih (spec_op tops count op).2.1 (spec_op tops count op).2.2 hver
    · cases hvar : var_of op.output with
      | none =>
        rw [(spec_op_none tops count hvar).2] at hver
        exact Or.inl hver
      | some w =>
        obtain ⟨houtput, hnext⟩ := spec_op_some tops count hvar
        simp only [hnext] at hver
        by_cases hv : v = w
        · rw [hv, Function.update_self, Option.some.injEq] at hver
          refine Or.inr ⟨0, (spec_op tops count op).1, rfl, ?_, ?_⟩
          · rw [houtput, hv]
            exact hvar
          · rw [houtput, hver]
        · rw [Function.update_of_ne hv] at hver
          exact Or.inl hver
    · exact Or.inr ⟨i + 1, hi⟩

/-- A version that a node has got is the one in force. -/
theorem renamed_version {tops : tops_t} {vn : Varnode} {v : Int} (hzero : (var_of vn).isSome = true → vn.offset = 0)
    (hv : var_of (renamed tops vn) = some v) (hne : (renamed tops vn).offset ≠ 0) :
    ∃ ver, tops v = some ver ∧ ver ≠ 0 ∧ (renamed tops vn).offset = UInt64.ofNat ver := by
  rw [var_of_congr (renamed_keeps tops vn).1 (renamed_keeps tops vn).2.1] at hv
  have hzero' := hzero (by rw [hv]; rfl)
  rw [renamed, hv, Option.bind_some] at hne ⊢
  cases hver : tops v with
  | none =>
    rw [hver] at hne
    exact absurd hzero' hne
  | some ver =>
    rw [hver] at hne
    refine ⟨ver, rfl, fun h => hne ?_, rfl⟩
    rw [h]
    rfl

variable {func placed func' : PcodeFunc} {vars : List Int} {idom : Nat → Option Nat} {phis : Int → List Nat}
  {log : List visit_t}

theorem Built.same_succs (h : Built func vars idom phis placed func' log) (b : Nat) : succs placed b = succs func b := by
  rw [succs, succs, h.blocks b]
  cases func.blocks[b]? <;> rfl

theorem Built.unique (h : Built func vars idom phis placed func' log) {e e' : visit_t} (he : e ∈ log) (he' : e' ∈ log)
    (heq : e.block = e'.block) : e = e' := List.inj_on_of_nodup_map h.nodup he he' heq

theorem Built.visit (h : Built func vars idom phis placed func' log) (hlinked : Linked func) {b : Nat}
    (hb : Dominance.Reachable (Edge func) (entry_block func) b) : ∃ e ∈ log, e.block = b := by
  have hmem := (h.visited b).mpr (((compute_reverse_postorder_spec hlinked.nonempty).mem b).mpr hb)
  exact List.mem_map.mp hmem

/-- In a visited block the updates of the phis' inputs for the edge from another are under the versions at its end. -/
theorem Built.args (h : Built func vars idom phis placed func' log) (hlinked : Linked func) {e : visit_t} (he : e ∈ log) :
    ∃ blk args, func.blocks[e.block]? = some blk ∧
      func'.blocks[e.block]? = some { blk with ops := (e.done placed).1.map (apply_arg args) } ∧
      ∀ e' ∈ log, e.block ∈ succs func e'.block → ∀ j, (preds func e.block).idxOf? e'.block = some j →
        ∀ op : PcodeInsn, op.seq = -1 →
          (apply_arg args op).inputs[j]? = op.inputs[j]?.map (renamed (e'.leaves placed)) := by
  obtain ⟨blk, args, hblk, -, -, hdone, hupdates⟩ := h.ops hlinked he
  have hpreds : preds func e.block = blk.preds := by
    rw [preds, hblk]
    rfl
  refine ⟨blk, args, hblk, ?_, fun e' he' hsucc j hj op hphi => ?_⟩
  · rw [hdone, apply_args_eq_map]
  rw [hpreds] at hj
  refine (apply_arg_inputs op hphi j).2 _ (hupdates.complete e' he' (by rw [h.same_succs]; exact hsucc) j hj) fun u hu huj => ?_
  -- Another update of the same place is one from the same predecessor.
  obtain ⟨e'', he'', -, hidx, htops⟩ := hupdates.sound u hu
  rw [huj] at hidx
  obtain ⟨hlt, hget, -⟩ := List.idxOf?_eq_some_iff.mp hj
  obtain ⟨_, hget', -⟩ := List.idxOf?_eq_some_iff.mp hidx
  rw [htops, h.unique he'' he' (hget'.symm.trans hget)]

/-- The phis of a block, before their inputs are filled in. -/
theorem Built.phi_inputs (h : Built func vars idom phis placed func' log) (hlifted : Lifted func) (hlinked : Linked func)
    {e : visit_t} (he : e ∈ log) {i : Nat} {o : PcodeInsn} (ho : (e.done placed).1[i]? = some o) (hphi : o.seq = -1) :
    ∃ v ∈ vars, o.inputs = List.replicate (preds func e.block).length (phi_output [] v) := by
  obtain ⟨blk, args, hblk, -, hops, -, -⟩ := h.ops hlinked he
  rw [visit_t.done, spec_ops_getElem?] at ho
  obtain ⟨op, hop, rfl⟩ := Option.map_eq_some_iff.mp ho
  rw [(spec_op_keeps _ _ op).1] at hphi
  have hmem := List.mem_of_getElem? hop
  rw [hops] at hmem
  obtain hmem | hmem := List.mem_append.mp hmem
  · obtain ⟨v, hv, rfl⟩ := List.mem_map.mp hmem
    refine ⟨v, List.mem_reverse.mp (List.mem_of_mem_filter hv), ?_⟩
    have hpreds : preds func e.block = blk.preds := by
      rw [preds, hblk]
      rfl
    rw [hpreds, spec_op]
    cases var_of (phi [] v blk.preds.length).output <;> rfl
  · exact absurd hphi ((hlifted blk (List.mem_of_getElem? hblk) op hmem).seq)

/-- The versions that a block finds in force come from blocks that dominate it properly. -/
theorem Built.tops_defined (h : Built func vars idom phis placed func' log) {e : visit_t} (he : e ∈ log) {v : Int}
    {ver : Nat} (hver : e.tops v = some ver) :
    ver = 0 ∨ ∃ e' ∈ log, e'.block ≠ e.block ∧
      Dominance.Chain (entry_block func) (Dominance.above (entry_block func) idom) e.block e'.block ∧
        ∃ i, Defines (e'.done placed).1 v (UInt64.ofNat ver) i := by
  induction hn : (compute_reverse_postorder func).idxOf e.block using Nat.strong_induction_on generalizing e with
  | _ n ih =>
    by_cases hentry : e.block = entry_block func
    · rw [h.start e he hentry, names_t.tops, initial_names] at hver
      by_cases hv : v ∈ (collect_defs func).all_vars
      · simp only [if_pos hv, Option.bind_some, List.head?_cons, Option.some.injEq] at hver
        exact Or.inl hver.symm
      · simp only [if_neg hv, Option.bind_none] at hver
        cases hver
    · obtain ⟨e', he', hidom, htops⟩ := h.inherits e he hentry
      have hparent : Dominance.above (entry_block func) idom e.block = e'.block := Dominance.above_of_some hidom
      have hlt := h.settled.swept.rooted e.block hentry
      rw [hparent] at hlt
      have hup : Dominance.Chain (entry_block func) (Dominance.above (entry_block func) idom) e.block e'.block :=
        .up hentry (by rw [hparent]; exact .here _)
      rw [htops] at hver
      obtain hver | ⟨i, hi⟩ := spec_ops_defines _ _ hver
      · obtain hzero | ⟨e'', he'', -, hchain, hdefines⟩ := ih _ (hn ▸ hlt) he' hver rfl
        · exact Or.inl hzero
        · refine Or.inr ⟨e'', he'', fun heq => ?_, hup.trans hchain, hdefines⟩
          have hle := Dominance.Chain.ord_le h.settled.swept.rooted hchain
          rw [heq] at hle
          exact absurd hlt (Nat.not_lt.mpr hle)
      · refine Or.inr ⟨e', he', fun heq => ?_, hup, i, hi⟩
        rw [heq] at hlt
        exact Nat.lt_irrefl _ hlt

theorem Built.leaves_defined (h : Built func vars idom phis placed func' log) {e : visit_t} (he : e ∈ log) {v : Int}
    {ver : Nat} (hver : e.leaves placed v = some ver) :
    ver = 0 ∨ ∃ e' ∈ log, Dominance.Chain (entry_block func) (Dominance.above (entry_block func) idom) e.block e'.block ∧
      ∃ i, Defines (e'.done placed).1 v (UInt64.ofNat ver) i := by
  obtain hver | ⟨i, hi⟩ := spec_ops_defines _ _ hver
  · obtain hzero | ⟨e', he', -, hrest⟩ := h.tops_defined he hver
    · exact Or.inl hzero
    · exact Or.inr ⟨e', he', hrest⟩
  · exact Or.inr ⟨e, he, .here _, i, hi⟩

theorem Built.defines (h : Built func vars idom phis placed func' log) (hlinked : Linked func) {e : visit_t}
    (he : e ∈ log) {v : Int} {ver : UInt64} {i : Nat} (hdefines : Defines (e.done placed).1 v ver i) :
    Defines (ops_at func' e.block) v ver i := by
  obtain ⟨o, ho, hvar, hver⟩ := hdefines
  obtain ⟨_, args, -, hdone, -⟩ := h.args hlinked he
  have hops := ops_at_of hdone
  have houtput := (apply_arg_keeps args o).2.1
  refine ⟨apply_arg args o, ?_, ?_, ?_⟩
  · rw [hops, List.getElem?_map, ho]
    rfl
  · rw [houtput]
    exact hvar
  · rw [houtput]
    exact hver

theorem Built.dominates (h : Built func vars idom phis placed func' log) (hlinked : Linked func) {e e' : visit_t}
    (he : e ∈ log) (hchain : Dominance.Chain (entry_block func) (Dominance.above (entry_block func) idom) e.block e'.block) :
    Dominance.Dominates (Edge func) (entry_block func) e'.block e.block := by
  have hrpo := compute_reverse_postorder_spec hlinked.nonempty
  have hreach := (hrpo.mem _).mp ((h.visited _).mp (List.mem_map_of_mem he))
  exact (h.settled.dominates_iff hrpo (Rpo.listed hrpo hlinked) hreach).mpr hchain

/-- Definitions dominate uses: a version that an operation reads is that of a result in a dominating block, or of an
earlier one in the same block; one that a phi takes over an edge comes from a block that dominates the edge's source. -/
theorem build_defs_dominate_uses (hlifted : Lifted func) (hlinked : Linked func)
    (hvars : ∀ v ∈ vars, v ∈ (collect_defs func).all_vars) {fuel : Nat}
    (hfuel : func.blocks.length * func.blocks.length + 2 ≤ fuel) :
    ∃ func', build vars fuel func = some func' ∧
      (∀ (b i : Nat) (op : PcodeInsn) (vn : Varnode) (v : Int),
        Dominance.Reachable (Edge func) (entry_block func) b → (ops_at func' b)[i]? = some op →
        op.seq ≠ -1 → vn ∈ op.inputs → var_of vn = some v → vn.offset ≠ 0 →
        ∃ d j, Dominance.Dominates (Edge func) (entry_block func) d b ∧ (d = b → j < i) ∧
          Defines (ops_at func' d) v vn.offset j) ∧
      ∀ (b i : Nat) (op : PcodeInsn) (p k : Nat) (vn : Varnode) (v : Int),
        Dominance.Reachable (Edge func) (entry_block func) p → Edge func p b →
        (ops_at func' b)[i]? = some op → op.seq = -1 → (preds func b).idxOf? p = some k → op.inputs[k]? = some vn →
        var_of vn = some v → vn.offset ≠ 0 →
        ∃ d j, Dominance.Dominates (Edge func) (entry_block func) d p ∧ Defines (ops_at func' d) v vn.offset j := by
  obtain ⟨idom, phis, placed, func', log, hrun, hbuilt⟩ := build_spec hlifted hlinked hvars hfuel
  refine ⟨func', hrun, ?_, ?_⟩
  · intro b i op vn v hb hop hseq hvn hvar hne
    obtain ⟨e, he, rfl⟩ := hbuilt.visit hlinked hb
    obtain ⟨_, args, -, hargs, -⟩ := hbuilt.args hlinked he
    rw [ops_at_of hargs, List.getElem?_map] at hop
    obtain ⟨o, ho, rfl⟩ := Option.map_eq_some_iff.mp hop
    obtain ⟨-, -, hseq', hplain⟩ := apply_arg_keeps args o
    rw [hseq'] at hseq
    rw [hplain hseq] at hvn
    -- The input is one of the operation before the renaming, under the versions in force there.
    obtain ⟨blk, -, hblk, -, hops, -, -⟩ := hbuilt.ops hlinked he
    rw [visit_t.done, spec_ops_getElem?] at ho
    obtain ⟨op', hop', rfl⟩ := Option.map_eq_some_iff.mp ho
    rw [(spec_op_keeps _ _ op').1] at hseq
    have hlift : LiftedOp op' := by
      have hmem := List.mem_of_getElem? hop'
      rw [hops] at hmem
      obtain hmem | hmem := List.mem_append.mp hmem
      · obtain ⟨w, -, rfl⟩ := List.mem_map.mp hmem
        exact absurd rfl hseq
      · exact hlifted blk (List.mem_of_getElem? hblk) op' hmem
    rw [spec_op_inputs _ _ hseq] at hvn
    obtain ⟨node, hnode, rfl⟩ := List.mem_map.mp hvn
    obtain ⟨ver, hver, hpos, hoffset⟩ := renamed_version (hlift.fresh node hnode) hvar hne
    rw [hoffset]
    obtain hver | ⟨j, hdefines⟩ := spec_ops_defines _ _ hver
    · obtain hzero | ⟨d, hd, hdiffer, hchain, j, hdefines⟩ := hbuilt.tops_defined he hver
      · exact absurd hzero hpos
      · exact ⟨d.block, j, hbuilt.dominates hlinked he hchain, fun heq => absurd heq hdiffer,
          hbuilt.defines hlinked hd hdefines⟩
    · rw [spec_ops_take] at hdefines
      obtain ⟨hlt, hdefines⟩ := hdefines.of_take
      exact ⟨e.block, j, Dominance.dominates_refl _, fun _ => hlt, hbuilt.defines hlinked he hdefines⟩
  · intro b i op p k vn v hp hedge hop hphi hidx hvn hvar hne
    obtain ⟨e', he', rfl⟩ := hbuilt.visit hlinked hp
    obtain ⟨e, he, rfl⟩ := hbuilt.visit hlinked (hp.step hedge)
    obtain ⟨_, args, -, hargs, hinputs⟩ := hbuilt.args hlinked he
    rw [ops_at_of hargs, List.getElem?_map] at hop
    obtain ⟨o, ho, rfl⟩ := Option.map_eq_some_iff.mp hop
    rw [(apply_arg_keeps args o).2.2.1] at hphi
    obtain ⟨w, -, hphis⟩ := hbuilt.phi_inputs hlifted hlinked he ho hphi
    rw [hinputs e' he' hedge.1 k hidx o hphi, hphis] at hvn
    obtain ⟨node, hnode, rfl⟩ := Option.map_eq_some_iff.mp hvn
    rw [List.eq_of_mem_replicate (List.mem_of_getElem? hnode)] at hvar hne ⊢
    obtain ⟨ver, hver, hpos, hoffset⟩ := renamed_version (fun _ => phi_output_offset w) hvar hne
    rw [hoffset]
    obtain hzero' | ⟨d, hd, hchain, j, hdefines⟩ := hbuilt.leaves_defined he' hver
    · exact absurd hzero' hpos
    · exact ⟨d.block, j, hbuilt.dominates hlinked he' hchain, hbuilt.defines hlinked hd hdefines⟩

theorem sign_func_uses_dominated :
    ∃ func', build (collect_defs sign_func).all_vars.dedup 18 sign_func = some func' ∧
      (∀ (b i : Nat) (op : PcodeInsn) (vn : Varnode) (v : Int),
        Dominance.Reachable (Edge sign_func) (entry_block sign_func) b → (ops_at func' b)[i]? = some op →
        op.seq ≠ -1 → vn ∈ op.inputs → var_of vn = some v → vn.offset ≠ 0 →
        ∃ d j, Dominance.Dominates (Edge sign_func) (entry_block sign_func) d b ∧ (d = b → j < i) ∧
          Defines (ops_at func' d) v vn.offset j) ∧
      ∀ (b i : Nat) (op : PcodeInsn) (p k : Nat) (vn : Varnode) (v : Int),
        Dominance.Reachable (Edge sign_func) (entry_block sign_func) p → Edge sign_func p b →
        (ops_at func' b)[i]? = some op → op.seq = -1 → (preds sign_func b).idxOf? p = some k →
        op.inputs[k]? = some vn → var_of vn = some v → vn.offset ≠ 0 →
        ∃ d j, Dominance.Dominates (Edge sign_func) (entry_block sign_func) d p ∧
          Defines (ops_at func' d) v vn.offset j :=
  build_defs_dominate_uses (by decide) sign_func_linked (fun _ => List.mem_dedup.mp) (by decide)

end Uses

end SSABuilder

end hype
