import ReverseSlop.Hyperion.Decompiler.Frontiers

namespace hype

variable {vars : List Int}

namespace SSABuilder

/-- The names in force; the newest version of a variable is in front. -/
structure names_t where
  slots : stack_slots_t
  var_stacks : Int → Option (List Nat)
  ssa_counter : Nat
  pushed : List Int := []

def rename_input (s : names_t) (vn : Varnode) : Varnode × names_t :=
  let k := (var_key s.slots vn).1
  let s' := { s with slots := (var_key s.slots vn).2 }
  match if k ≥ 0 then s.var_stacks k else none with
  | some (ver :: _) => ({ vn with offset := UInt64.ofNat ver }, s')
  | _ => (vn, s')

def rename_inputs : names_t → List Varnode → List Varnode × names_t
  | s, [] => ([], s)
  | s, vn :: rest =>
    let r := rename_input s vn
    let rs := rename_inputs r.2 rest
    (r.1 :: rs.1, rs.2)

def rename_output (s : names_t) (vn : Varnode) : Varnode × names_t :=
  let k := (var_key s.slots vn).1
  let s' := { s with slots := (var_key s.slots vn).2 }
  if k ≥ 0 then
    ({ vn with offset := UInt64.ofNat (s.ssa_counter + 1) },
      { s' with
        var_stacks := Function.update s.var_stacks k (some ((s.ssa_counter + 1) :: (s.var_stacks k).getD []))
        ssa_counter := s.ssa_counter + 1
        pushed := k :: s.pushed })
  else (vn, s')

/-- The inputs of a phi are left to the predecessors. -/
def rename_op (s : names_t) (op : PcodeInsn) : PcodeInsn × names_t :=
  let ins := if op.seq ≠ -1 then rename_inputs s op.inputs else (op.inputs, s)
  let out := rename_output ins.2 op.output
  ({ op with inputs := ins.1, output := out.1 }, out.2)

def rename_ops : names_t → List PcodeInsn → List PcodeInsn × names_t
  | s, [] => ([], s)
  | s, op :: rest =>
    let r := rename_op s op
    let rs := rename_ops r.2 rest
    (r.1 :: rs.1, rs.2)

/-- The inputs for one edge of the phis at the front of a block. -/
def rename_args (pred_idx : Nat) : names_t → List PcodeInsn → List PcodeInsn × names_t
  | s, [] => ([], s)
  | s, op :: rest =>
    if op.seq ≠ -1 then (op :: rest, s)
    else
      match op.inputs[pred_idx]? with
      | none => ((op :: (rename_args pred_idx s rest).1), (rename_args pred_idx s rest).2)
      | some vn =>
        let r := rename_input s vn
        let rs := rename_args pred_idx r.2 rest
        ({ op with inputs := op.inputs.set pred_idx r.1 } :: rs.1, rs.2)

structure rename_t where
  blocks : List PcodeBlock
  names : names_t

/-- What a block writes into one of its successors. -/
def rename_succ (b : Nat) (s : rename_t) (successor : Nat) : rename_t :=
  match s.blocks[successor]? with
  | none => s
  | some succ =>
    match succ.preds.idxOf? b with
    | none => s
    | some pred_idx =>
      let r := rename_args pred_idx s.names succ.ops
      { blocks := s.blocks.set successor { succ with ops := r.1 }, names := r.2 }

/-- The versions that a block has pushed go again. -/
def pop (var_stacks : Int → Option (List Nat)) (pushed : List Int) : Int → Option (List Nat) :=
  pushed.foldl (fun var_stacks k => Function.update var_stacks k ((var_stacks k).map List.tail)) var_stacks

/-- A block and, below it in the dominator tree, its children; no deeper than the tree is. -/
def rename_block (children : Nat → List Nat) : Nat → Nat → rename_t → Option rename_t
  | 0, _, _ => none
  | fuel + 1, b, s =>
    match s.blocks[b]? with
    | none => some s
    | some blk =>
      let r := rename_ops { s.names with pushed := [] } blk.ops
      let s' := blk.succs.foldl (rename_succ b) { blocks := s.blocks.set b { blk with ops := r.1 }, names := r.2 }
      ((children b).foldlM (fun s c => rename_block children fuel c s) s').map fun done =>
        { done with names := { done.names with var_stacks := pop done.names.var_stacks r.2.pushed } }

/-- The start of the renaming: version 0 of every variable that is written. -/
def initial_names (defs : defs_t) : names_t :=
  { slots := defs.slots, var_stacks := fun v => if v ∈ defs.all_vars then some [0] else none, ssa_counter := 0 }

/-- The whole construction, for the order `vars` of a hash map of the variables. -/
def build (vars : List Int) (fuel : Nat) (func : PcodeFunc) : Option PcodeFunc :=
  if func.blocks = [] then some func
  else
    (compute_dominators func fuel).bind fun idom =>
      (insert_phis func (compute_dom_frontiers func idom) vars).bind fun out =>
        (rename_block (dom_children func idom) (func.blocks.length + 1) (entry_block func)
          { blocks := out.blocks, names := initial_names (collect_defs func) }).map fun s =>
            { out with blocks := s.blocks, next_ssa := s.names.ssa_counter }

section Names

/-- The variable of a register or a temporary; other nodes have no versions. -/
def var_of (vn : Varnode) : Option Int :=
  if vn.is_reg then some vn.id else if vn.is_temp then some (1000 + vn.id) else none

/-- The version of a variable that is in force. -/
abbrev tops_t := Int → Option Nat

def names_t.tops (s : names_t) : tops_t := fun k => (s.var_stacks k).bind List.head?

/-- A node as it reads under some versions. -/
def renamed (tops : tops_t) (vn : Varnode) : Varnode :=
  match (var_of vn).bind tops with
  | none => vn
  | some ver => { vn with offset := UInt64.ofNat ver }

/-- What the renaming of an operation comes to. -/
def spec_op (tops : tops_t) (count : Nat) (op : PcodeInsn) : PcodeInsn × tops_t × Nat :=
  let inputs := if op.seq ≠ -1 then op.inputs.map (renamed tops) else op.inputs
  match var_of op.output with
  | none => ({ op with inputs := inputs }, tops, count)
  | some k =>
    ({ op with inputs := inputs, output := { op.output with offset := UInt64.ofNat (count + 1) } },
      Function.update tops k (some (count + 1)), count + 1)

def spec_ops : tops_t → Nat → List PcodeInsn → List PcodeInsn × tops_t × Nat
  | tops, count, [] => ([], tops, count)
  | tops, count, op :: rest =>
    let r := spec_op tops count op
    let rs := spec_ops r.2.1 r.2.2 rest
    (r.1 :: rs.1, rs.2)

/-- The phis of a block with their inputs for one edge. -/
def set_args (pred_idx : Nat) (tops : tops_t) (ops : List PcodeInsn) : List PcodeInsn :=
  ops.map fun op => if op.seq = -1 then { op with inputs := op.inputs.modify pred_idx (renamed tops) } else op

/-- A node that the keys tell apart: its number is below 1000. -/
def NumberedNode (vn : Varnode) : Prop := vn.is_reg = true ∨ vn.is_temp = true → 0 ≤ vn.id ∧ vn.id < 1000

/-- Nothing on the stack has versions. -/
def NoSlots (s : names_t) : Prop := ∀ k, k < 0 ∨ 2000 ≤ k → s.var_stacks k = none

theorem var_key_cases (slots : stack_slots_t) (vn : Varnode) :
    (∃ k, var_of vn = some k ∧ var_key slots vn = (k, slots)) ∨
      (var_of vn = none ∧ ((var_key slots vn).1 < 0 ∨ 2000 ≤ (var_key slots vn).1)) := by
  rw [var_of, var_key]
  by_cases hreg : vn.is_reg = true
  · rw [if_pos hreg, if_pos hreg]
    exact Or.inl ⟨_, rfl, rfl⟩
  by_cases htemp : vn.is_temp = true
  · rw [if_neg hreg, if_neg hreg, if_pos htemp, if_pos htemp]
    exact Or.inl ⟨_, rfl, rfl⟩
  rw [if_neg hreg, if_neg hreg, if_neg htemp, if_neg htemp]
  refine Or.inr ⟨rfl, ?_⟩
  by_cases hstack : vn.is_stack = true
  · rw [if_pos hstack]
    refine Or.inr ?_
    cases slots.findIdx? fun s => s.1 = stack_slot vn with
    | none => exact Int.le_add_of_nonneg_right (Int.natCast_nonneg _)
    | some i => exact Int.le_add_of_nonneg_right (Int.natCast_nonneg _)
  · rw [if_neg hstack]
    exact Or.inl (Int.negSucc_lt_zero 0)

theorem var_key_none {vn : Varnode} (slots : stack_slots_t) (hnone : var_of vn = none) (hstack : vn.is_stack = false) :
    var_key slots vn = (-1, slots) := by
  rw [var_of] at hnone
  have hreg : ¬ vn.is_reg = true := fun h => by rw [if_pos h] at hnone; cases hnone
  rw [if_neg hreg] at hnone
  have htemp : ¬ vn.is_temp = true := fun h => by rw [if_pos h] at hnone; cases hnone
  rw [var_key, if_neg hreg, if_neg htemp, if_neg (ne_true_of_eq_false hstack)]

theorem var_of_bounds {vn : Varnode} {k : Int} (hnumbered : NumberedNode vn) (hk : var_of vn = some k) :
    0 ≤ k ∧ k < 2000 := by
  rw [var_of] at hk
  by_cases hreg : vn.is_reg = true
  · have := hnumbered (Or.inl hreg)
    rw [if_pos hreg, Option.some.injEq] at hk
    omega
  rw [if_neg hreg] at hk
  by_cases htemp : vn.is_temp = true
  · have := hnumbered (Or.inr htemp)
    rw [if_pos htemp, Option.some.injEq] at hk
    omega
  · rw [if_neg htemp] at hk
    cases hk

theorem rename_input_spec {s : names_t} {vn : Varnode} (hslots : NoSlots s) (hnumbered : NumberedNode vn) :
    ∃ slots, rename_input s vn = (renamed s.tops vn, { s with slots := slots }) := by
  refine ⟨(var_key s.slots vn).2, ?_⟩
  obtain ⟨k, hk, hkey⟩ | ⟨hnone, hout⟩ := var_key_cases s.slots vn
  · obtain ⟨hnonneg, -⟩ := var_of_bounds hnumbered hk
    rw [rename_input, renamed, hk, hkey]
    simp only [ge_iff_le, hnonneg, if_true, Option.bind_some, names_t.tops]
    cases s.var_stacks k with
    | none => rfl
    | some versions =>
      cases versions with
      | nil => rfl
      | cons ver versions => rfl
  · have hempty : (if (var_key s.slots vn).1 ≥ 0 then s.var_stacks (var_key s.slots vn).1 else none) = none := by
      split
      · exact hslots _ hout
      · rfl
    rw [rename_input, renamed, hnone]
    simp only [hempty, Option.bind_none]

theorem rename_inputs_spec {s : names_t} {inputs : List Varnode} (hslots : NoSlots s)
    (hnumbered : ∀ vn ∈ inputs, NumberedNode vn) :
    ∃ slots, rename_inputs s inputs = (inputs.map (renamed s.tops), { s with slots := slots }) := by
  induction inputs generalizing s with
  | nil => exact ⟨s.slots, rfl⟩
  | cons vn rest ih =>
    obtain ⟨slots, hvn⟩ := rename_input_spec hslots (hnumbered vn List.mem_cons_self)
    obtain ⟨slots', hrest⟩ := ih (s := { s with slots := slots }) hslots
      fun v hv => hnumbered v (List.mem_cons_of_mem _ hv)
    refine ⟨slots', ?_⟩
    rw [rename_inputs, hvn]
    simp only [hrest]
    rfl

/-- An operation whose nodes the keys tell apart, and whose result is one of some variables. -/
structure PlainOp (vars : List Int) (op : PcodeInsn) : Prop where
  inputs : ∀ vn ∈ op.inputs, NumberedNode vn
  output : NumberedNode op.output
  unstacked : op.output.is_stack = false
  known : ∀ k, var_of op.output = some k → k ∈ vars

/-- Names that have a stack for each of some variables, and none for the others. -/
structure Stacked (vars : List Int) (s : names_t) : Prop where
  noslots : NoSlots s
  all : ∀ k ∈ vars, (s.var_stacks k).isSome = true

theorem Stacked.congr {s s' : names_t} (h : Stacked vars s) (hstacks : s'.var_stacks = s.var_stacks) :
    Stacked vars s' := by
  refine ⟨fun k hk => ?_, fun k hk => ?_⟩
  · rw [hstacks]
    exact h.noslots k hk
  · rw [hstacks]
    exact h.all k hk

theorem tops_congr {s s' : names_t} (hstacks : s'.var_stacks = s.var_stacks) : s'.tops = s.tops := by
  funext k
  rw [names_t.tops, names_t.tops, hstacks]

theorem pop_push {var_stacks : Int → Option (List Nat)} {pushed : List Int} {k : Int} {ver : Nat}
    (hk : (var_stacks k).isSome = true) :
    pop (Function.update var_stacks k (some (ver :: (var_stacks k).getD []))) (k :: pushed) =
      pop var_stacks pushed := by
  obtain ⟨versions, hversions⟩ := Option.isSome_iff_exists.mp hk
  rw [pop, List.foldl_cons, Function.update_self, Function.update_idem, hversions]
  show pop (Function.update var_stacks k (some versions)) pushed = _
  rw [← hversions, Function.update_eq_self]

/-- What one operation does to the names. -/
theorem rename_op_spec {s : names_t} {op : PcodeInsn} (hstacked : Stacked vars s)
    (hop : PlainOp vars op) :
    ∃ s', rename_op s op = ((spec_op s.tops s.ssa_counter op).1, s') ∧
      s'.tops = (spec_op s.tops s.ssa_counter op).2.1 ∧ s'.ssa_counter = (spec_op s.tops s.ssa_counter op).2.2 ∧
      Stacked vars s' ∧ pop s'.var_stacks s'.pushed = pop s.var_stacks s.pushed := by
  obtain ⟨slots, hins⟩ : ∃ slots, (if op.seq ≠ -1 then rename_inputs s op.inputs else (op.inputs, s)) =
      (if op.seq ≠ -1 then op.inputs.map (renamed s.tops) else op.inputs, { s with slots := slots }) := by
    by_cases hphi : op.seq ≠ -1
    · obtain ⟨slots, h⟩ := rename_inputs_spec hstacked.noslots hop.inputs
      exact ⟨slots, by rw [if_pos hphi, if_pos hphi, h]⟩
    · exact ⟨s.slots, by rw [if_neg hphi, if_neg hphi]⟩
  rw [rename_op, hins, spec_op]
  simp only
  obtain ⟨k, hk, hkey⟩ | ⟨hnone, -⟩ := var_key_cases slots op.output
  · obtain ⟨hnonneg, hlt⟩ := var_of_bounds hop.output hk
    rw [rename_output, hkey, hk]
    simp only [ge_iff_le, hnonneg, if_true]
    refine ⟨_, rfl, ?_, rfl, ⟨?_, ?_⟩, pop_push (hstacked.all k (hop.known k hk))⟩
    · funext j
      by_cases hj : j = k
      · simp [names_t.tops, hj]
      · simp [names_t.tops, hj]
    · intro j hj
      have hne : j ≠ k := by omega
      simp only [Function.update_of_ne hne]
      exact hstacked.noslots j hj
    · intro j hj
      by_cases hjk : j = k
      · simp only [hjk, Function.update_self, Option.isSome_some]
      · simp only [Function.update_of_ne hjk]
        exact hstacked.all j hj
  · -- A result that is no variable has no key, since it is not on the stack.
    have hneg : ¬ (-1 : Int) ≥ 0 := by decide
    rw [rename_output, hnone, var_key_none slots hnone hop.unstacked]
    simp only [hneg, if_false]
    exact ⟨_, rfl, rfl, rfl, ⟨hstacked.noslots, hstacked.all⟩, rfl⟩

theorem rename_ops_spec {s : names_t} {ops : List PcodeInsn} (hstacked : Stacked vars s)
    (hops : ∀ op ∈ ops, PlainOp vars op) :
    ∃ s', rename_ops s ops = ((spec_ops s.tops s.ssa_counter ops).1, s') ∧
      s'.tops = (spec_ops s.tops s.ssa_counter ops).2.1 ∧ s'.ssa_counter = (spec_ops s.tops s.ssa_counter ops).2.2 ∧
      Stacked vars s' ∧ pop s'.var_stacks s'.pushed = pop s.var_stacks s.pushed := by
  induction ops generalizing s with
  | nil => exact ⟨s, rfl, rfl, rfl, hstacked, rfl⟩
  | cons op rest ih =>
    obtain ⟨t, hop, htops, hcount, ht, hpop⟩ := rename_op_spec hstacked (hops op List.mem_cons_self)
    obtain ⟨s', hrest, htops', hcount', hs', hpop'⟩ := ih ht fun o ho => hops o (List.mem_cons_of_mem _ ho)
    rw [htops, hcount] at hrest htops' hcount'
    refine ⟨s', ?_, htops', hcount', hs', hpop'.trans hpop⟩
    rw [rename_ops, hop]
    simp only [hrest]
    rfl

/-- The phis of a block stand in front of its other operations. -/
def PhisFirst (ops : List PcodeInsn) : Prop := (ops.map PcodeInsn.seq).Pairwise fun a b => b = -1 → a = -1

theorem set_args_plain {pred_idx : Nat} {tops : tops_t} {ops : List PcodeInsn} (hplain : ∀ op ∈ ops, op.seq ≠ -1) :
    set_args pred_idx tops ops = ops := by
  refine (List.map_congr_left fun op hop => ?_).trans (List.map_id ops)
  exact if_neg (hplain op hop)

theorem rename_args_spec {s : names_t} {ops : List PcodeInsn} (pred_idx : Nat) (hslots : NoSlots s)
    (hnumbered : ∀ op ∈ ops, ∀ vn ∈ op.inputs, NumberedNode vn) (hfirst : PhisFirst ops) :
    ∃ slots, rename_args pred_idx s ops = (set_args pred_idx s.tops ops, { s with slots := slots }) := by
  induction ops generalizing s with
  | nil => exact ⟨s.slots, rfl⟩
  | cons op rest ih =>
    rw [PhisFirst, List.map_cons] at hfirst
    obtain ⟨hhead, htail⟩ := List.pairwise_cons.mp hfirst
    have hnumbered' : ∀ o ∈ rest, ∀ vn ∈ o.inputs, NumberedNode vn :=
      fun o ho => hnumbered o (List.mem_cons_of_mem _ ho)
    rw [rename_args]
    by_cases hphi : op.seq = -1
    · rw [if_neg (not_not.mpr hphi), set_args, List.map_cons, if_pos hphi]
      cases hvn : op.inputs[pred_idx]? with
      | none =>
        obtain ⟨slots, h⟩ := ih hslots hnumbered' htail
        refine ⟨slots, ?_⟩
        have hlen : op.inputs.length ≤ pred_idx := List.getElem?_eq_none_iff.mp hvn
        simp only [h, List.modify_eq_self hlen]
        rfl
      | some vn =>
        have hmem := hnumbered op List.mem_cons_self vn (List.mem_of_getElem? hvn)
        obtain ⟨slots, hin⟩ := rename_input_spec hslots hmem
        obtain ⟨slots', h⟩ := ih (s := { s with slots := slots }) hslots hnumbered' htail
        refine ⟨slots', ?_⟩
        have hmodify : op.inputs.modify pred_idx (renamed s.tops) = op.inputs.set pred_idx (renamed s.tops vn) := by
          rw [List.modify_eq_set_getElem?, hvn]
          rfl
        simp only [hin, h, hmodify]
        rfl
    · refine ⟨s.slots, ?_⟩
      rw [if_pos hphi, set_args_plain]
      intro o ho
      obtain heq | ho := List.mem_cons.mp ho
      · rw [heq]
        exact hphi
      · exact fun h => hphi (hhead _ (List.mem_map_of_mem ho) h)

theorem renamed_keeps (tops : tops_t) (vn : Varnode) :
    (renamed tops vn).kind = vn.kind ∧ (renamed tops vn).id = vn.id ∧ (renamed tops vn).size = vn.size ∧
      (renamed tops vn).name = vn.name := by
  rw [renamed]
  cases (var_of vn).bind tops <;> exact ⟨rfl, rfl, rfl, rfl⟩

theorem numbered_congr {vn vn' : Varnode} (hkind : vn'.kind = vn.kind) (hid : vn'.id = vn.id)
    (h : NumberedNode vn) : NumberedNode vn' := by
  rw [NumberedNode, Varnode.is_reg, Varnode.is_temp, hkind, hid]
  exact h

theorem numbered_renamed {tops : tops_t} {vn : Varnode} (h : NumberedNode vn) : NumberedNode (renamed tops vn) :=
  numbered_congr (renamed_keeps tops vn).1 (renamed_keeps tops vn).2.1 h

/-- What the keys see of operations stays as it is under other inputs of phis. -/
theorem set_args_plainOps {pred_idx : Nat} {tops : tops_t} {ops : List PcodeInsn}
    (hops : ∀ op ∈ ops, PlainOp vars op) : ∀ op ∈ set_args pred_idx tops ops, PlainOp vars op := by
  intro op hop
  obtain ⟨o, ho, rfl⟩ := List.mem_map.mp hop
  have h := hops o ho
  by_cases hphi : o.seq = -1
  · rw [if_pos hphi]
    refine ⟨fun vn hvn => ?_, h.output, h.unstacked, h.known⟩
    obtain ⟨i, hi⟩ := List.mem_iff_getElem?.mp hvn
    rw [List.getElem?_modify] at hi
    obtain ⟨v, hv, hvn⟩ := Option.map_eq_some_iff.mp hi
    have hnum := h.inputs v (List.mem_of_getElem? hv)
    rw [← hvn]
    split
    · exact numbered_renamed hnum
    · exact hnum
  · rw [if_neg hphi]
    exact h

theorem spec_op_keeps (tops : tops_t) (count : Nat) (op : PcodeInsn) :
    (spec_op tops count op).1.seq = op.seq ∧ (spec_op tops count op).1.output.kind = op.output.kind ∧
      (spec_op tops count op).1.output.id = op.output.id ∧
      ∀ vn ∈ (spec_op tops count op).1.inputs, ∃ v ∈ op.inputs, vn = v ∨ vn = renamed tops v := by
  have hinputs : ∀ vn ∈ (if op.seq ≠ -1 then op.inputs.map (renamed tops) else op.inputs),
      ∃ v ∈ op.inputs, vn = v ∨ vn = renamed tops v := by
    intro vn hvn
    by_cases hphi : op.seq ≠ -1
    · rw [if_pos hphi] at hvn
      obtain ⟨v, hv, rfl⟩ := List.mem_map.mp hvn
      exact ⟨v, hv, Or.inr rfl⟩
    · rw [if_neg hphi] at hvn
      exact ⟨vn, hvn, Or.inl rfl⟩
  rw [spec_op]
  cases var_of op.output <;> exact ⟨rfl, rfl, rfl, hinputs⟩

theorem var_of_congr {vn vn' : Varnode} (hkind : vn'.kind = vn.kind) (hid : vn'.id = vn.id) :
    var_of vn' = var_of vn := by
  rw [var_of, var_of, Varnode.is_reg, Varnode.is_reg, Varnode.is_temp, Varnode.is_temp, hkind, hid]

theorem spec_ops_plainOps {tops : tops_t} {count : Nat} {ops : List PcodeInsn}
    (hops : ∀ op ∈ ops, PlainOp vars op) : ∀ op ∈ (spec_ops tops count ops).1, PlainOp vars op := by
  induction ops generalizing tops count with
  | nil => exact fun op hop => absurd hop List.not_mem_nil
  | cons o rest ih =>
    intro op hop
    rw [spec_ops] at hop
    obtain heq | hop := List.mem_cons.mp hop
    · have h := hops o List.mem_cons_self
      obtain ⟨-, hkind, hid, hinputs⟩ := spec_op_keeps tops count o
      rw [heq]
      refine ⟨fun vn hvn => ?_, numbered_congr hkind hid h.output, ?_, fun k hk => h.known k ?_⟩
      · obtain ⟨v, hv, hcase⟩ := hinputs vn hvn
        obtain hcase | hcase := hcase
        · exact hcase ▸ h.inputs v hv
        · exact hcase ▸ numbered_renamed (h.inputs v hv)
      · rw [Varnode.is_stack, hkind]
        exact h.unstacked
      · rw [← var_of_congr hkind hid]
        exact hk
    · exact ih (fun o ho => hops o (List.mem_cons_of_mem _ ho)) op hop

theorem set_args_seq (pred_idx : Nat) (tops : tops_t) (ops : List PcodeInsn) :
    (set_args pred_idx tops ops).map PcodeInsn.seq = ops.map PcodeInsn.seq := by
  rw [set_args, List.map_map]
  refine List.map_congr_left fun op _ => ?_
  show (if op.seq = -1 then _ else op : PcodeInsn).seq = op.seq
  split <;> rfl

theorem spec_ops_seq (tops : tops_t) (count : Nat) (ops : List PcodeInsn) :
    (spec_ops tops count ops).1.map PcodeInsn.seq = ops.map PcodeInsn.seq := by
  induction ops generalizing tops count with
  | nil => rfl
  | cons op rest ih =>
    rw [spec_ops, List.map_cons, List.map_cons, ih, (spec_op_keeps tops count op).1]

/-- The inputs of its phis do not matter to the renaming of a block. -/
theorem spec_ops_set_args (tops : tops_t) (count pred_idx : Nat) (args : tops_t) (ops : List PcodeInsn) :
    (spec_ops tops count (set_args pred_idx args ops)) =
      (set_args pred_idx args (spec_ops tops count ops).1, (spec_ops tops count ops).2) := by
  induction ops generalizing tops count with
  | nil => rfl
  | cons op rest ih =>
    have hop : spec_op tops count
        (if op.seq = -1 then { op with inputs := op.inputs.modify pred_idx (renamed args) } else op) =
        ((if (spec_op tops count op).1.seq = -1 then
            { (spec_op tops count op).1 with
              inputs := (spec_op tops count op).1.inputs.modify pred_idx (renamed args) }
          else (spec_op tops count op).1), (spec_op tops count op).2) := by
      by_cases hphi : op.seq = -1
      · rw [if_pos hphi, spec_op, spec_op]
        cases var_of op.output <;> simp [hphi]
      · rw [if_neg hphi, spec_op]
        cases var_of op.output <;> simp [hphi]
    rw [set_args, List.map_cons, spec_ops, hop]
    simp only
    have hrest := ih (spec_op tops count op).2.1 (spec_op tops count op).2.2
    rw [set_args] at hrest
    rw [hrest]
    rfl

/-- Several updates of the inputs of phis. -/
def apply_args (args : List (Nat × tops_t)) (ops : List PcodeInsn) : List PcodeInsn :=
  args.foldl (fun ops u => set_args u.1 u.2 ops) ops

/-- What the updates make of one operation. -/
def apply_arg (args : List (Nat × tops_t)) (op : PcodeInsn) : PcodeInsn :=
  args.foldl
    (fun op u => if op.seq = -1 then { op with inputs := op.inputs.modify u.1 (renamed u.2) } else op) op

theorem apply_args_eq_map (args : List (Nat × tops_t)) (ops : List PcodeInsn) :
    apply_args args ops = ops.map (apply_arg args) := by
  induction args generalizing ops with
  | nil => exact (List.map_id ops).symm
  | cons u args ih =>
    refine (ih (set_args u.1 u.2 ops)).trans ?_
    rw [set_args, List.map_map]
    rfl

theorem apply_args_append (args args' : List (Nat × tops_t)) (ops : List PcodeInsn) :
    apply_args (args ++ args') ops = apply_args args' (apply_args args ops) := List.foldl_append

theorem apply_args_seq (args : List (Nat × tops_t)) (ops : List PcodeInsn) :
    (apply_args args ops).map PcodeInsn.seq = ops.map PcodeInsn.seq := by
  induction args generalizing ops with
  | nil => rfl
  | cons u args ih => exact (ih _).trans (set_args_seq _ _ _)

theorem apply_args_plainOps {args : List (Nat × tops_t)} {ops : List PcodeInsn}
    (hops : ∀ op ∈ ops, PlainOp vars op) : ∀ op ∈ apply_args args ops, PlainOp vars op := by
  induction args generalizing ops with
  | nil => exact hops
  | cons u args ih => exact ih (set_args_plainOps hops)

theorem spec_ops_apply_args (tops : tops_t) (count : Nat) (args : List (Nat × tops_t)) (ops : List PcodeInsn) :
    spec_ops tops count (apply_args args ops) =
      (apply_args args (spec_ops tops count ops).1, (spec_ops tops count ops).2) := by
  induction args generalizing ops with
  | nil => rfl
  | cons u args ih =>
    show spec_ops tops count (apply_args args (set_args u.1 u.2 ops)) = _
    rw [ih, spec_ops_set_args]
    rfl

end Names

section Visits

/-- A visit of the renaming: the block, and the versions and the counter that it found. -/
structure visit_t where
  block : Nat
  tops : tops_t
  count : Nat

variable (placed : PcodeFunc)

def ops_at (b : Nat) : List PcodeInsn := (placed.blocks[b]?.map PcodeBlock.ops).getD []

def visit_t.done (e : visit_t) : List PcodeInsn × tops_t × Nat := spec_ops e.tops e.count (ops_at placed e.block)

/-- The versions and the counter that a visit leaves to its successors and its children. -/
def visit_t.leaves (e : visit_t) : tops_t := (e.done placed).2.1
def visit_t.last (e : visit_t) : Nat := (e.done placed).2.2

/-- The operations of a block but for the inputs of phis, when some blocks have been visited. -/
def base (log : List visit_t) (c : Nat) (ops : List PcodeInsn) : List PcodeInsn :=
  match log.find? fun e => e.block = c with
  | some e => (spec_ops e.tops e.count ops).1
  | none => ops

/-- Updates that a block has had from the visits of its predecessors. -/
structure Updates (log : List visit_t) (c : Nat) (blk : PcodeBlock) (args : List (Nat × tops_t)) : Prop where
  sound : ∀ u ∈ args, ∃ e ∈ log, c ∈ succs placed e.block ∧ blk.preds.idxOf? e.block = some u.1 ∧ u.2 = e.leaves placed
  complete : ∀ e ∈ log, c ∈ succs placed e.block → ∀ i, blk.preds.idxOf? e.block = some i → (i, e.leaves placed) ∈ args

/-- The blocks under way: those visited are renamed, and their successors have had their inputs of phis. -/
def Renaming (log : List visit_t) (blocks : List PcodeBlock) : Prop :=
  blocks.length = placed.blocks.length ∧
  ∀ (c : Nat) (blk : PcodeBlock), placed.blocks[c]? = some blk → ∃ args,
    blocks[c]? = some { blk with ops := apply_args args (base log c blk.ops) } ∧ Updates placed log c blk args

/-- Visits with counters that follow on each other. -/
def Consecutive : Nat → List visit_t → Nat → Prop
  | count, [], last => count = last
  | count, e :: rest, last => e.count = count ∧ Consecutive (e.last placed) rest last

variable {placed}

theorem Consecutive.append {log log' : List visit_t} {a b c : Nat} (h : Consecutive placed a log b)
    (h' : Consecutive placed b log' c) : Consecutive placed a (log ++ log') c := by
  induction log generalizing a with
  | nil =>
    rw [Consecutive] at h
    rw [h]
    exact h'
  | cons e rest ih => exact ⟨h.1, ih h.2⟩

theorem base_append_of_mem {log log' : List visit_t} {c : Nat} {ops : List PcodeInsn}
    (hc : ∃ e ∈ log, e.block = c) : base (log ++ log') c ops = base log c ops := by
  obtain ⟨e, he, hblock⟩ := hc
  have hfind : (log.find? fun e => e.block = c).isSome = true :=
    List.find?_isSome.mpr ⟨e, he, decide_eq_true hblock⟩
  rw [base, base, List.find?_append]
  obtain ⟨e', he'⟩ := Option.isSome_iff_exists.mp hfind
  rw [he']
  rfl

theorem base_append_of_notMem {log log' : List visit_t} {c : Nat} {ops : List PcodeInsn}
    (hc : ∀ e ∈ log, e.block ≠ c) : base (log ++ log') c ops = base log' c ops := by
  have hfind : (log.find? fun e => e.block = c) = none :=
    List.find?_eq_none.mpr fun e he h => hc e he (of_decide_eq_true h)
  rw [base, base, List.find?_append, hfind]
  rfl

/-- The successors of a block get the versions at its end as inputs of their phis. -/
theorem rename_succs_spec {b : Nat} {L : List Nat} {t : rename_t}
    (hstacked : Stacked vars t.names)
    (hplain : ∀ (c : Nat) (blk : PcodeBlock), t.blocks[c]? = some blk → (∀ op ∈ blk.ops, PlainOp vars op) ∧ PhisFirst blk.ops) :
    ∃ t' : rename_t, L.foldl (rename_succ b) t = t' ∧ t'.names.var_stacks = t.names.var_stacks ∧
      t'.names.ssa_counter = t.names.ssa_counter ∧ t'.blocks.length = t.blocks.length ∧
      ∀ (c : Nat) (blk : PcodeBlock), t.blocks[c]? = some blk → ∃ args : List (Nat × tops_t),
        t'.blocks[c]? = some { blk with ops := apply_args args blk.ops } ∧
        (∀ u ∈ args, c ∈ L ∧ blk.preds.idxOf? b = some u.1 ∧ u.2 = t.names.tops) ∧
        (c ∈ L → ∀ i, blk.preds.idxOf? b = some i → (i, t.names.tops) ∈ args) := by
  induction L generalizing t with
  | nil =>
    refine ⟨t, rfl, rfl, rfl, rfl, fun c blk hblk => ⟨[], hblk, ?_, ?_⟩⟩
    · exact fun u hu => absurd hu List.not_mem_nil
    · exact fun hc => absurd hc List.not_mem_nil
  | cons s rest ih =>
    -- One successor.
    obtain ⟨t1, ht1, hstacks, hcount, hlength, hblocks⟩ : ∃ t1 : rename_t, rename_succ b t s = t1 ∧
        t1.names.var_stacks = t.names.var_stacks ∧ t1.names.ssa_counter = t.names.ssa_counter ∧
        t1.blocks.length = t.blocks.length ∧
        ∀ (c : Nat) (blk : PcodeBlock), t.blocks[c]? = some blk → ∃ args : List (Nat × tops_t),
          t1.blocks[c]? = some { blk with ops := apply_args args blk.ops } ∧
          (∀ u ∈ args, c = s ∧ blk.preds.idxOf? b = some u.1 ∧ u.2 = t.names.tops) ∧
          (c = s → ∀ i, blk.preds.idxOf? b = some i → (i, t.names.tops) ∈ args) := by
      rw [rename_succ]
      cases hs : t.blocks[s]? with
      | none =>
        refine ⟨t, rfl, rfl, rfl, rfl, fun c blk hblk => ⟨[], hblk, ?_, ?_⟩⟩
        · exact fun u hu => absurd hu List.not_mem_nil
        · intro hcs
          rw [hcs, hs] at hblk
          cases hblk
      | some succ =>
        simp only
        cases hidx : succ.preds.idxOf? b with
        | none =>
          refine ⟨t, rfl, rfl, rfl, rfl, fun c blk hblk => ⟨[], hblk, ?_, ?_⟩⟩
          · exact fun u hu => absurd hu List.not_mem_nil
          · intro hcs i hi
            rw [hcs, hs, Option.some.injEq] at hblk
            rw [← hblk, hidx] at hi
            cases hi
        | some i =>
          obtain ⟨hops, hfirst⟩ := hplain s succ hs
          obtain ⟨slots, hargs⟩ :=
            rename_args_spec i hstacked.noslots (fun op hop => (hops op hop).inputs) hfirst
          simp only [hargs]
          refine ⟨_, rfl, rfl, rfl, List.length_set, fun c blk hblk => ?_⟩
          by_cases hcs : c = s
          · rw [hcs, hs, Option.some.injEq] at hblk
            have hlt := (List.getElem?_eq_some_iff.mp hs).1
            refine ⟨[(i, t.names.tops)], ?_, ?_, ?_⟩
            · rw [hcs, List.getElem?_set_self hlt, ← hblk]
              rfl
            · intro u hu
              rw [List.mem_singleton] at hu
              rw [hu, ← hblk]
              exact ⟨hcs, hidx, rfl⟩
            · intro _ j hj
              rw [← hblk, hidx, Option.some.injEq] at hj
              rw [hj]
              exact List.mem_singleton_self _
          · refine ⟨[], ?_, fun u hu => absurd hu List.not_mem_nil, fun h => absurd h hcs⟩
            rw [List.getElem?_set_ne fun h => hcs h.symm]
            exact hblk
    have htops : t1.names.tops = t.names.tops := tops_congr hstacks
    have hstacked1 : Stacked vars t1.names := hstacked.congr hstacks
    have hplain1 : ∀ (c : Nat) (blk : PcodeBlock), t1.blocks[c]? = some blk → (∀ op ∈ blk.ops, PlainOp vars op) ∧ PhisFirst blk.ops := by
      intro c blk hblk
      have hlt := (List.getElem?_eq_some_iff.mp hblk).1
      rw [hlength] at hlt
      obtain ⟨args, hargs, -, -⟩ := hblocks c _ (List.getElem?_eq_getElem hlt)
      rw [hblk, Option.some.injEq] at hargs
      obtain ⟨hops, hfirst⟩ := hplain c _ (List.getElem?_eq_getElem hlt)
      rw [hargs]
      refine ⟨apply_args_plainOps hops, ?_⟩
      rw [PhisFirst, apply_args_seq]
      exact hfirst
    obtain ⟨t', ht', hstacks', hcount', hlength', hblocks'⟩ := ih hstacked1 hplain1
    refine ⟨t', ?_, hstacks'.trans hstacks, hcount'.trans hcount, hlength'.trans hlength, ?_⟩
    · rw [List.foldl_cons, ht1]
      exact ht'
    · intro c blk hblk
      obtain ⟨args, hargs, hsound, hcomplete⟩ := hblocks c blk hblk
      obtain ⟨args', hargs', hsound', hcomplete'⟩ := hblocks' c _ hargs
      rw [htops] at hsound' hcomplete'
      refine ⟨args ++ args', ?_, ?_, ?_⟩
      · rw [hargs', apply_args_append]
      · intro u hu
        obtain hu | hu := List.mem_append.mp hu
        · obtain ⟨hc, hrest⟩ := hsound u hu
          exact ⟨List.mem_cons.mpr (Or.inl hc), hrest⟩
        · obtain ⟨hc, hrest⟩ := hsound' u hu
          exact ⟨List.mem_cons_of_mem _ hc, hrest⟩
      · intro hc j hj
        obtain heq | hc := List.mem_cons.mp hc
        · exact List.mem_append_left _ (hcomplete heq j hj)
        · exact List.mem_append_right _ (hcomplete' hc j hj)

theorem base_of_notMem {log : List visit_t} {c : Nat} {ops : List PcodeInsn} (hc : ∀ e ∈ log, e.block ≠ c) :
    base log c ops = ops := by
  have hfind : (log.find? fun e => e.block = c) = none :=
    List.find?_eq_none.mpr fun e he h => hc e he (of_decide_eq_true h)
  rw [base, hfind]

theorem base_snoc_self {log : List visit_t} {e : visit_t} {ops : List PcodeInsn}
    (hnew : ∀ e' ∈ log, e'.block ≠ e.block) :
    base (log ++ [e]) e.block ops = (spec_ops e.tops e.count ops).1 := by
  have hfind : ([e].find? fun e' => e'.block = e.block) = some e := List.find?_cons_of_pos (decide_eq_true rfl)
  rw [base_append_of_notMem hnew, base, hfind]

theorem base_snoc_other {log : List visit_t} {e : visit_t} {c : Nat} {ops : List PcodeInsn} (hc : c ≠ e.block) :
    base (log ++ [e]) c ops = base log c ops := by
  by_cases hmem : ∃ e' ∈ log, e'.block = c
  · exact base_append_of_mem hmem
  · have hnone : ∀ e' ∈ log, e'.block ≠ c := fun e' he' h => hmem ⟨e', he', h⟩
    rw [base_append_of_notMem hnone, base_of_notMem hnone, base_of_notMem]
    intro e' he'
    rw [List.mem_singleton.mp he']
    exact hc.symm

/-- Functions whose operations the renaming takes. -/
def Plain (vars : List Int) (func : PcodeFunc) : Prop :=
  ∀ (b : Nat) (blk : PcodeBlock), func.blocks[b]? = some blk → (∀ op ∈ blk.ops, PlainOp vars op) ∧ PhisFirst blk.ops

theorem base_plain (log : List visit_t) (c : Nat) {ops : List PcodeInsn}
    (hops : ∀ op ∈ ops, PlainOp vars op) (hfirst : PhisFirst ops) :
    (∀ op ∈ base log c ops, PlainOp vars op) ∧ PhisFirst (base log c ops) := by
  rw [base]
  cases log.find? fun e => e.block = c with
  | none => exact ⟨hops, hfirst⟩
  | some e =>
    refine ⟨spec_ops_plainOps hops, ?_⟩
    rw [PhisFirst, spec_ops_seq]
    exact hfirst

theorem plain_of_args {log : List visit_t} {blocks : List PcodeBlock} (hplain : Plain vars placed)
    (hlength : blocks.length = placed.blocks.length)
    (hargs : ∀ (c : Nat) (blk : PcodeBlock), placed.blocks[c]? = some blk →
      ∃ args, blocks[c]? = some { blk with ops := apply_args args (base log c blk.ops) })
    (c : Nat) (blk : PcodeBlock) (hblk : blocks[c]? = some blk) :
    (∀ op ∈ blk.ops, PlainOp vars op) ∧ PhisFirst blk.ops := by
  have hlt := (List.getElem?_eq_some_iff.mp hblk).1
  rw [hlength] at hlt
  have hplaced := List.getElem?_eq_getElem hlt
  obtain ⟨args, hargs⟩ := hargs c _ hplaced
  rw [hblk, Option.some.injEq] at hargs
  obtain ⟨hops, hfirst⟩ := hplain c _ hplaced
  obtain ⟨hops', hfirst'⟩ := base_plain log c hops hfirst
  rw [hargs]
  refine ⟨apply_args_plainOps hops', ?_⟩
  rw [PhisFirst, apply_args_seq]
  exact hfirst'

/-- A visit of a block renames it, and hands its versions to its successors. -/
theorem rename_visit (hplain : Plain vars placed) {log : List visit_t} {b : Nat} {s : rename_t}
    (hrenaming : Renaming placed log s.blocks) (hstacked : Stacked vars s.names) (hb : b < placed.blocks.length)
    (hnew : ∀ e ∈ log, e.block ≠ b) {e : visit_t} (he : e = ⟨b, s.names.tops, s.names.ssa_counter⟩) :
    ∃ (s' : rename_t) (pushed : List Int),
      (∀ children fuel, rename_block children (fuel + 1) b s =
        ((children b).foldlM (fun s c => rename_block children fuel c s) s').map fun done =>
          { done with names := { done.names with var_stacks := pop done.names.var_stacks pushed } }) ∧
      pop s'.names.var_stacks pushed = s.names.var_stacks ∧ Renaming placed (log ++ [e]) s'.blocks ∧
      Stacked vars s'.names ∧ s'.names.tops = e.leaves placed ∧ s'.names.ssa_counter = e.last placed := by
  have hblock : e.block = b := by rw [he]
  obtain ⟨blk, hblk⟩ : ∃ blk, placed.blocks[b]? = some blk := ⟨_, List.getElem?_eq_getElem hb⟩
  obtain ⟨args, hargs, hupdates⟩ := hrenaming.2 b blk hblk
  rw [base_of_notMem hnew] at hargs
  have hops : ∀ op ∈ apply_args args blk.ops, PlainOp vars op := apply_args_plainOps (hplain b blk hblk).1
  obtain ⟨names, hrun, htops, hcount, hstacked', hpop⟩ :=
    rename_ops_spec (s := { s.names with pushed := [] }) (hstacked.congr rfl) hops
  have hdone : e.done placed = spec_ops s.names.tops s.names.ssa_counter blk.ops := by
    rw [visit_t.done, ops_at, hblock, hblk, he]
    rfl
  have hspec : spec_ops ({ s.names with pushed := [] } : names_t).tops s.names.ssa_counter (apply_args args blk.ops) =
      (apply_args args (e.done placed).1, (e.done placed).2) := by
    rw [hdone]
    exact spec_ops_apply_args _ _ _ _
  rw [hspec] at hrun htops hcount
  -- The block itself, under its new names.
  let t : rename_t :=
    { blocks := s.blocks.set b { blk with ops := apply_args args (e.done placed).1 }, names := names }
  have hself : t.blocks[b]? = some { blk with ops := apply_args args (e.done placed).1 } := by
    refine List.getElem?_set_self ?_
    rw [hrenaming.1]
    exact hb
  have hother : ∀ c, c ≠ b → t.blocks[c]? = s.blocks[c]? := fun c hc => List.getElem?_set_ne hc.symm
  have hblocks : ∀ (c : Nat) (blk : PcodeBlock), placed.blocks[c]? = some blk → ∃ args,
      t.blocks[c]? = some { blk with ops := apply_args args (base (log ++ [e]) c blk.ops) } ∧
        Updates placed log c blk args := by
    intro c blk' hblk'
    by_cases hc : c = b
    · rw [hc, hblk, Option.some.injEq] at hblk'
      refine ⟨args, ?_, ?_⟩
      · rw [hc, ← hblk', hself, ← hblock, base_snoc_self (by rw [hblock]; exact hnew), hdone, he]
      · rw [hc, ← hblk']
        exact hupdates
    · obtain ⟨args', hargs', hupdates'⟩ := hrenaming.2 c blk' hblk'
      refine ⟨args', ?_, hupdates'⟩
      rw [hother c hc, base_snoc_other (by rw [hblock]; exact hc)]
      exact hargs'
  have hlen : t.blocks.length = placed.blocks.length := List.length_set.trans hrenaming.1
  obtain ⟨s', hs', hstacks, hcounter, hlength, hsuccs⟩ :=
    rename_succs_spec (b := b) (L := blk.succs) (t := t) hstacked'
      (plain_of_args hplain hlen fun c blk hblk => (hblocks c blk hblk).imp fun _ h => h.1)
  have hsucc : succs placed e.block = blk.succs := by
    rw [succs, hblock, hblk]
    rfl
  refine ⟨s', names.pushed, ?_, ?_, ⟨?_, ?_⟩, hstacked'.congr hstacks, (tops_congr hstacks).trans htops,
    hcounter.trans hcount⟩
  · intro children fuel
    rw [rename_block, hargs]
    simp only [hrun]
    rw [← hs']
  · rw [hstacks]
    exact hpop
  · exact hlength.trans hlen
  · intro c blk' hblk'
    obtain ⟨args', hargs', hupdates'⟩ := hblocks c blk' hblk'
    obtain ⟨added, hadded, hsound, hcomplete⟩ := hsuccs c _ hargs'
    have hleaves : t.names.tops = e.leaves placed := htops
    rw [hleaves] at hsound hcomplete
    refine ⟨args' ++ added, ?_, ⟨?_, ?_⟩⟩
    · rw [hadded, apply_args_append]
    · intro u hu
      obtain hu | hu := List.mem_append.mp hu
      · obtain ⟨e', he', hrest⟩ := hupdates'.sound u hu
        exact ⟨e', List.mem_append_left _ he', hrest⟩
      · obtain ⟨hc, hidx, htop⟩ := hsound u hu
        refine ⟨e, List.mem_append_right _ (List.mem_singleton_self e), ?_, ?_, htop⟩
        · rw [hsucc]
          exact hc
        · rw [hblock]
          exact hidx
    · intro e' he' hc i hi
      obtain he' | he' := List.mem_append.mp he'
      · exact List.mem_append_left _ (hupdates'.complete e' he' hc i hi)
      · rw [List.mem_singleton.mp he'] at hc hi ⊢
        rw [hsucc] at hc
        rw [hblock] at hi
        exact List.mem_append_right _ (hcomplete hc i hi)

variable (placed) in
/-- The visits below some blocks: the trees of these in preorder, each visit under the versions that its parent left. -/
structure Visited (children : Nat → List Nat) (fuel : Nat) (roots : List Nat) (tops : tops_t) (log : List visit_t) :
    Prop where
  blocks : log.map visit_t.block = roots.flatMap (Dominance.preorder children fuel)
  inherits : ∀ e ∈ log, (e.block ∈ roots ∧ e.tops = tops) ∨
    ∃ e' ∈ log, e.block ∈ children e'.block ∧ e.tops = e'.leaves placed

theorem Visited.append {children : Nat → List Nat} {fuel c : Nat} {rest : List Nat} {tops : tops_t}
    {log log' : List visit_t} (h : Visited placed children fuel [c] tops log)
    (h' : Visited placed children fuel rest tops log') : Visited placed children fuel (c :: rest) tops (log ++ log') := by
  refine ⟨?_, ?_⟩
  · rw [List.map_append, h.blocks, h'.blocks, List.flatMap_singleton, List.flatMap_cons]
  · intro e he
    obtain he | he := List.mem_append.mp he
    · obtain ⟨hroot, htops⟩ | ⟨e', he', hchild⟩ := h.inherits e he
      · exact Or.inl ⟨List.mem_cons.mpr (Or.inl (List.mem_singleton.mp hroot)), htops⟩
      · exact Or.inr ⟨e', List.mem_append_left _ he', hchild⟩
    · obtain ⟨hroot, htops⟩ | ⟨e', he', hchild⟩ := h'.inherits e he
      · exact Or.inl ⟨List.mem_cons_of_mem _ hroot, htops⟩
      · exact Or.inr ⟨e', List.mem_append_right _ he', hchild⟩

/-- What the renaming of some subtrees comes to. -/
def Renames (placed : PcodeFunc) (vars : List Int) (children : Nat → List Nat) (fuel : Nat) (roots : List Nat)
    (log : List visit_t) (s s' : rename_t) (added : List visit_t) : Prop :=
  Renaming placed (log ++ added) s'.blocks ∧ Stacked vars s'.names ∧ s'.names.var_stacks = s.names.var_stacks ∧
    Consecutive placed s.names.ssa_counter added s'.names.ssa_counter ∧
    Visited placed children fuel roots s.names.tops added

/-- The renaming below a block, by induction on the depth of the tree. -/
theorem rename_block_spec (hplain : Plain vars placed) (children : Nat → List Nat) (ord : Nat → Nat)
    (hord : ∀ b, ∀ c ∈ children b, ord b < ord c ∧ c < placed.blocks.length) (bound : Nat)
    (hbound : ∀ b < placed.blocks.length, ord b ≤ bound) {fuel : Nat} {b : Nat} {s : rename_t} {log : List visit_t}
    (hrenaming : Renaming placed log s.blocks) (hstacked : Stacked vars s.names) (hb : b < placed.blocks.length)
    (hfuel : bound < ord b + fuel)
    (hnodup : (log.map visit_t.block ++ Dominance.preorder children fuel b).Nodup) :
    ∃ s' added, rename_block children fuel b s = some s' ∧ Renames placed vars children fuel [b] log s s' added := by
  induction fuel generalizing b s log with
  | zero => exact absurd (hbound b hb) (by omega)
  | succ fuel ih =>
    -- The children one after the other, from the induction.
    have hfold : ∀ (cs : List Nat) (s : rename_t) (log : List visit_t), Renaming placed log s.blocks →
        Stacked vars s.names → (∀ c ∈ cs, c ∈ children b) →
        (log.map visit_t.block ++ cs.flatMap (Dominance.preorder children fuel)).Nodup →
        ∃ s' added, cs.foldlM (fun s c => rename_block children fuel c s) s = some s' ∧
          Renames placed vars children fuel cs log s s' added := by
      intro cs
      induction cs with
      | nil =>
        intro s log hrenaming hstacked _ _
        refine ⟨s, [], rfl, ?_, hstacked, rfl, rfl, ⟨rfl, fun e he => absurd he List.not_mem_nil⟩⟩
        rw [List.append_nil]
        exact hrenaming
      | cons c cs ihcs =>
        intro s log hrenaming hstacked hcs hnodup
        obtain ⟨hlt, hc⟩ := hord b c (hcs c List.mem_cons_self)
        rw [List.flatMap_cons, ← List.append_assoc] at hnodup
        obtain ⟨t, added, ht, hrenaming', hstacked', hstacks, hcount, hvisited⟩ :=
          ih hrenaming hstacked hc (by omega) (List.nodup_append.mp hnodup).1
        have hblocks : (log ++ added).map visit_t.block =
            log.map visit_t.block ++ Dominance.preorder children fuel c := by
          rw [List.map_append, hvisited.blocks, List.flatMap_singleton]
        rw [← hblocks] at hnodup
        obtain ⟨s', added', hs', hrenaming'', hstacked'', hstacks', hcount', hvisited'⟩ :=
          ihcs t (log ++ added) hrenaming' hstacked' (fun c hc => hcs c (List.mem_cons_of_mem _ hc)) hnodup
        rw [tops_congr hstacks] at hvisited'
        refine ⟨s', added ++ added', ?_, ?_, hstacked'', hstacks'.trans hstacks, hcount.append hcount',
          hvisited.append hvisited'⟩
        · rw [List.foldlM_cons, ht]
          exact hs'
        · rw [← List.append_assoc]
          exact hrenaming''
    rw [Dominance.preorder] at hnodup
    have hnew : ∀ e ∈ log, e.block ≠ b := by
      intro e he heq
      exact (List.nodup_append.mp hnodup).2.2 _ (List.mem_map_of_mem he) b List.mem_cons_self heq
    obtain ⟨t, pushed, hrun, hpop, hrenaming', hstacked', htops, hcount⟩ :=
      rename_visit hplain hrenaming hstacked hb hnew rfl
    obtain ⟨s', added, hs', hrenaming'', hstacked'', hstacks, hcount', hvisited⟩ :=
      hfold (children b) t _ hrenaming' hstacked' (fun c hc => hc) (by
        rw [List.map_append, List.append_assoc]
        exact hnodup)
    have hstacks' : pop s'.names.var_stacks pushed = s.names.var_stacks := by
      rw [hstacks]
      exact hpop
    refine ⟨{ s' with names := { s'.names with var_stacks := pop s'.names.var_stacks pushed } },
      ⟨b, s.names.tops, s.names.ssa_counter⟩ :: added, ?_, ?_, hstacked.congr hstacks', hstacks', ⟨rfl, ?_⟩,
      ⟨?_, ?_⟩⟩
    · rw [hrun, hs']
      rfl
    · rw [List.append_assoc] at hrenaming''
      exact hrenaming''
    · rw [hcount] at hcount'
      exact hcount'
    · rw [List.map_cons, hvisited.blocks, List.flatMap_singleton, Dominance.preorder]
    · intro e he
      obtain heq | he := List.mem_cons.mp he
      · rw [heq]
        exact Or.inl ⟨List.mem_singleton_self b, rfl⟩
      · obtain ⟨hchild, htops'⟩ | ⟨e', he', hchild⟩ := hvisited.inherits e he
        · exact Or.inr ⟨_, List.mem_cons_self, hchild, htops'.trans htops⟩
        · exact Or.inr ⟨e', List.mem_cons_of_mem _ he', hchild⟩

end Visits

end SSABuilder

end hype
