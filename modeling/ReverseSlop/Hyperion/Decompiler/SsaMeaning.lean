import ReverseSlop.Hyperion.Decompiler.SsaForm

namespace hype

/-- Values are kept under the name of their node; its offset tells the versions of a register or temporary apart.
Unlike in `value_cell`, a register has one value for all its widths, as it is one variable for the construction. -/
def Varnode.name_cell (vn : Varnode) : Option (VarnodeKind × Int × UInt64) :=
  if vn.is_const then none else some (vn.kind, vn.id, vn.offset)

namespace SSABuilder

section Joins

variable {func placed func' : PcodeFunc} {vars : List Int} {idom : Nat → Option Nat} {phis : Int → List Nat}
  {log : List visit_t}

theorem spec_ops_untouched {tops : tops_t} {count : Nat} {ops : List PcodeInsn} {v : Int}
    (hnone : ∀ op ∈ ops, var_of op.output ≠ some v) : (spec_ops tops count ops).2.1 v = tops v := by
  induction ops generalizing tops count with
  | nil => rfl
  | cons op ops ih =>
    refine (ih fun o ho => hnone o (List.mem_cons_of_mem _ ho)).trans ?_
    cases hvar : var_of op.output with
    | none => rw [(spec_op_none tops count hvar).2]
    | some w =>
      have hne : v ≠ w := fun heq => hnone op List.mem_cons_self (heq ▸ hvar)
      rw [(spec_op_some tops count hvar).2]
      exact Function.update_of_ne hne _ _

/-- A block that gives no version to a variable leaves the one that it has found. -/
theorem Built.untouched (h : Built func vars idom phis placed func' log) (hlifted : Lifted func) (hlinked : Linked func)
    (hvars : ∀ v ∈ vars, v ∈ (collect_defs func).all_vars) {e : visit_t} (he : e ∈ log) {v : Int}
    (hdef : e.block ∉ (collect_defs func).def_blocks v) (hphi : e.block ∉ phis v) : e.leaves placed v = e.tops v := by
  obtain ⟨blk, args, hblk, -, hops, -, -⟩ := h.ops hlinked he
  refine spec_ops_untouched fun op hop hvar => ?_
  rw [hops] at hop
  obtain hop | hop := List.mem_append.mp hop
  · obtain ⟨w, hw, rfl⟩ := List.mem_map.mp hop
    obtain ⟨hmem, hplaced⟩ := List.mem_filter.mp hw
    have houtput := (phi_output_plain hlifted (hvars w (List.mem_reverse.mp hmem))).2.2
    have heq : w = v := Option.some.inj (houtput.symm.trans hvar)
    exact hphi (heq ▸ of_decide_eq_true hplaced)
  · exact hdef ((mem_def_blocks hlifted).mpr ⟨op, mem_ops_at.mpr ⟨blk, hblk, hop⟩, hvar⟩)

/-- Where a block has no phi for a variable, all its predecessors leave the version that its immediate dominator leaves:
a definition on the way between would have the block in its frontier. -/
theorem Built.agrees_at_join (h : Built func vars idom phis placed func' log) (hlifted : Lifted func)
    (hlinked : Linked func) (hvars : ∀ v ∈ vars, v ∈ (collect_defs func).all_vars) {e p : visit_t} (he : e ∈ log)
    (hp : p ∈ log) (hsucc : e.block ∈ succs func p.block) (hentry : e.block ≠ entry_block func) {v : Int}
    (hphi : e.block ∉ phis v) : e.tops v = p.leaves placed v := by
  have hrpo := compute_reverse_postorder_spec hlinked.nonempty
  have hb := (h.visited _).mp (List.mem_map_of_mem he)
  have hlt := hrpo.bounded hlinked.nonempty hb
  have hprpo := (h.visited _).mp (List.mem_map_of_mem hp)
  obtain ⟨d, hd, hidom, htops⟩ := h.inherits e he hentry
  have hparent : Dominance.above (entry_block func) idom e.block = d.block := Dominance.above_of_some hidom
  have hmeet := Dominance.Settled.meet hrpo h.settled hb hentry
  rw [hparent] at hmeet
  have hmem : p.block ∈ (preds func e.block).filter (· ∈ compute_reverse_postorder func) :=
    List.mem_filter.mpr ⟨(hlinked.linked _ _ hlt).mpr hsucc, decide_eq_true hprpo⟩
  -- Up from the predecessor no block below the dominator writes the variable.
  have hwalk : ∀ c a, Dominance.Chain (entry_block func) (Dominance.above (entry_block func) idom) c a → a = d.block →
      Dominance.Chain (entry_block func) (Dominance.above (entry_block func) idom) p.block c →
        ∀ x ∈ log, x.block = c → x.leaves placed v = d.leaves placed v := by
    intro c a hchain
    induction hchain with
    | here c =>
      intro hc _ x hx hblock
      rw [h.unique hx hd (hblock.trans hc)]
    | @up c a hc hup ih =>
      intro ha hpc x hx hblock
      by_cases hcd : c = d.block
      · rw [h.unique hx hd (hblock.trans hcd)]
      · have hcrpo : c ∈ compute_reverse_postorder func := hblock ▸ (h.visited _).mp (List.mem_map_of_mem hx)
        have hfrontier : e.block ∈ compute_dom_frontiers func idom c := by
          rw [mem_compute_dom_frontiers hrpo hlinked h.settled hentry hcrpo]
          have hpreach := (hrpo.mem _).mp hprpo
          refine ⟨hb, ⟨p.block, ⟨hsucc, hlt⟩, hpreach, (h.settled.dominates_iff hrpo (Rpo.listed hrpo hlinked) hpreach).mpr hpc⟩, ?_⟩
          intro hdom
          -- Else the block would be both above and below the immediate dominator.
          have hbc := (h.settled.dominates_iff hrpo (Rpo.listed hrpo hlinked) ((hrpo.mem _).mp hb)).mp hdom.1
          obtain ⟨-, hdc⟩ := hbc.of_ne hdom.2
          rw [hparent] at hdc
          have hle := Dominance.Chain.ord_le h.settled.swept.rooted hdc
          have hle' := Dominance.Chain.ord_le h.settled.swept.rooted hup
          have hlt' := h.settled.swept.rooted c hc
          rw [ha] at hle'
          omega
        have hdef : x.block ∉ (collect_defs func).def_blocks v := by
          intro hmem
          exact hphi ((h.iterated v _).mpr ⟨c, hblock ▸ hmem, Relation.TransGen.single hfrontier⟩)
        have hnophi : x.block ∉ phis v := by
          intro hmem
          obtain ⟨s, hs, hpath⟩ := (h.iterated v _).mp hmem
          rw [hblock] at hpath
          exact hphi ((h.iterated v _).mpr ⟨s, hs, hpath.tail hfrontier⟩)
        have hcentry : x.block ≠ entry_block func := hblock ▸ hc
        obtain ⟨y, hy, hyidom, hytops⟩ := h.inherits x hx hcentry
        have hyparent : Dominance.above (entry_block func) idom c = y.block := hblock ▸ Dominance.above_of_some hyidom
        rw [h.untouched hlifted hlinked hvars hx hdef hnophi, hytops]
        exact ih ha (hpc.trans (.up hc (.here _))) y hy hyparent.symm
  rw [htops]
  exact (hwalk p.block d.block (hmeet.chain hmem) rfl (.here _) p hp rfl).symm

end Joins

section Matching

variable {V W : Type} {m : machine_t V W}

/-- A node as it is before the construction. -/
structure FreshNode (vn : Varnode) : Prop where
  numbered : NumberedNode vn
  zero : (var_of vn).isSome = true → vn.offset = 0

/-- Nodes have the values that they have on the other side under the versions in force. -/
def Matches (m : machine_t V W) (on : Varnode → Prop) (tops : tops_t) (env env' : VarnodeKind × Int × UInt64 → V) :
    Prop := ∀ vn, FreshNode vn → on vn →
  read m Varnode.name_cell env vn = read m Varnode.name_cell env' (renamed tops vn)

theorem name_cell_eq_some {vn : Varnode} {k : VarnodeKind × Int × UInt64} (h : vn.name_cell = some k) :
    k = (vn.kind, vn.id, vn.offset) := by
  rw [Varnode.name_cell] at h
  split at h
  · cases h
  · exact (Option.some.inj h).symm

theorem name_cell_var {vn : Varnode} {v : Int} (hvar : var_of vn = some v) :
    vn.name_cell = some (vn.kind, vn.id, vn.offset) := by
  refine if_neg fun hconst => ?_
  rw [Varnode.is_const, decide_eq_true_iff] at hconst
  rw [var_of, Varnode.is_reg, Varnode.is_temp, hconst] at hvar
  cases hvar

/-- Below 1000 the keys tell registers and temporaries apart. -/
theorem var_of_inj {a b : Varnode} {v : Int} (ha : NumberedNode a) (hb : NumberedNode b) (hva : var_of a = some v)
    (hvb : var_of b = some v) : a.kind = b.kind ∧ a.id = b.id := by
  have hcases : ∀ {vn : Varnode}, NumberedNode vn → var_of vn = some v →
      (vn.kind = .reg ∧ vn.id = v ∧ v < 1000) ∨ (vn.kind = .temp ∧ vn.id = v - 1000 ∧ 1000 ≤ v) := by
    intro vn hvn hv
    rw [var_of] at hv
    by_cases hreg : vn.is_reg = true
    · rw [if_pos hreg, Option.some.injEq] at hv
      have hlt := (hvn (Or.inl hreg)).2
      exact Or.inl ⟨of_decide_eq_true hreg, hv, by omega⟩
    · by_cases htemp : vn.is_temp = true
      · rw [if_neg hreg, if_pos htemp, Option.some.injEq] at hv
        have hnonneg := (hvn (Or.inr htemp)).1
        exact Or.inr ⟨of_decide_eq_true htemp, by omega, by omega⟩
      · rw [if_neg hreg, if_neg htemp] at hv
        cases hv
  obtain ⟨hka, hia, hlt⟩ | ⟨hka, hia, hle⟩ := hcases ha hva
  · obtain ⟨hkb, hib, -⟩ | ⟨-, -, hle⟩ := hcases hb hvb
    · exact ⟨hka.trans hkb.symm, hia.trans hib.symm⟩
    · omega
  · obtain ⟨-, -, hlt⟩ | ⟨hkb, hib, -⟩ := hcases hb hvb
    · omega
    · exact ⟨hka.trans hkb.symm, hia.trans hib.symm⟩

theorem renamed_none {tops : tops_t} {vn : Varnode} (hvar : var_of vn = none) : renamed tops vn = vn := by
  rw [renamed, hvar]
  rfl

theorem renamed_update_self {tops : tops_t} {vn : Varnode} {v : Int} (n : Nat) (hvar : var_of vn = some v) :
    renamed (Function.update tops v (some n)) vn = { vn with offset := UInt64.ofNat n } := by
  rw [renamed, hvar, Option.bind_some, Function.update_self]

theorem renamed_update_other {tops : tops_t} {vn : Varnode} {v : Int} (n : Option Nat) (hvar : var_of vn ≠ some v) :
    renamed (Function.update tops v n) vn = renamed tops vn := by
  rw [renamed, renamed]
  cases hw : var_of vn with
  | none => rfl
  | some w =>
    have hne : w ≠ v := fun heq => hvar (heq ▸ hw)
    rw [Option.bind_some, Option.bind_some, Function.update_of_ne hne]

/-- One node is kept where another is only if the two are one variable. -/
theorem same_cell {a b : Varnode} {k : VarnodeKind × Int × UInt64} (ha : a.name_cell = some k)
    (hb : b.name_cell = some k) : var_of a = var_of b := by
  have heq := (name_cell_eq_some ha).symm.trans (name_cell_eq_some hb)
  rw [Prod.mk.injEq, Prod.mk.injEq] at heq
  exact var_of_congr heq.1 heq.2.1

theorem var_of_renamed (tops : tops_t) (vn : Varnode) : var_of (renamed tops vn) = var_of vn :=
  var_of_congr (renamed_keeps tops vn).1 (renamed_keeps tops vn).2.1

variable {on : Varnode → Prop} {tops : tops_t} {env env' : VarnodeKind × Int × UInt64 → V}

/-- A variable that is written on both sides, there as a new version, matches from then on. -/
theorem Matches.write_var (h : Matches m on tops env env') {out : Varnode} {v : Int} (hout : FreshNode out)
    (hvar : var_of out = some v) (n : Nat) (x : V) :
    Matches m (fun vn => on vn ∨ var_of vn = some v) (Function.update tops v (some n))
      (write Varnode.name_cell env out x)
      (write Varnode.name_cell env' { out with offset := UInt64.ofNat n } x) := by
  intro vn hvn hon
  have hvar' : var_of { out with offset := UInt64.ofNat n } = some v := hvar
  by_cases hv : var_of vn = some v
  · obtain ⟨hkind, hid⟩ := var_of_inj hvn.numbered hout.numbered hv hvar
    rw [renamed_update_self n hv]
    have hcell : vn.name_cell = some (out.kind, out.id, out.offset) := by
      rw [name_cell_var hv, hkind, hid, hvn.zero (by rw [hv]; rfl), hout.zero (by rw [hvar]; rfl)]
    have hcell' : Varnode.name_cell { vn with offset := UInt64.ofNat n } = some (out.kind, out.id, UInt64.ofNat n) := by
      rw [← hkind, ← hid]
      exact name_cell_var (v := v) hv
    rw [read_write_same (name_cell_var hvar) hcell, read_write_same (name_cell_var hvar') hcell']
  · rw [renamed_update_other _ hv, read_write_other, read_write_other]
    · exact h vn hvn (hon.resolve_right hv)
    · intro k hk hk'
      rw [← var_of_renamed tops vn] at hv
      exact hv ((same_cell hk' hk).trans hvar')
    · intro k hk hk'
      exact hv ((same_cell hk' hk).trans hvar)

/-- What is no variable is written in the same cell on both sides. -/
theorem Matches.write_other (h : Matches m on tops env env') {out : Varnode} (hvar : var_of out = none) (x : V) :
    Matches m on tops (write Varnode.name_cell env out x) (write Varnode.name_cell env' out x) := by
  intro vn hvn hon
  by_cases hsame : ∃ k, out.name_cell = some k ∧ vn.name_cell = some k
  · obtain ⟨k, hk, hk'⟩ := hsame
    rw [renamed_none ((same_cell hk' hk).trans hvar), read_write_same hk hk', read_write_same hk hk']
  · rw [read_write_other fun k hk hk' => hsame ⟨k, hk, hk'⟩, read_write_other]
    · exact h vn hvn hon
    · intro k hk hk'
      have hnone : var_of vn = none := (var_of_renamed tops vn).symm.trans ((same_cell hk' hk).trans hvar)
      rw [renamed_none hnone] at hk'
      exact hsame ⟨k, hk, hk'⟩

/-- Two blocks under way, the second one renamed. Behind a return the values do not matter any more. -/
structure FramesMatch (m : machine_t V W) (tops : tops_t) (s s' : frame_t (VarnodeKind × Int × UInt64) V W) : Prop where
  env : s.returned = none → Matches m (fun _ => True) tops s.env s'.env
  world : s.world = s'.world
  branches : s.branches = s'.branches
  returned : s.returned = s'.returned

theorem LiftedOp.node {op : PcodeInsn} (h : LiftedOp op) : ∀ vn ∈ op.inputs, FreshNode vn :=
  fun vn hvn => ⟨h.numbered vn hvn, h.fresh vn hvn⟩

theorem spec_op_shape (count : Nat) (op : PcodeInsn) :
    (spec_op tops count op).1.op = op.op ∧ (spec_op tops count op).1.output.size = op.output.size := by
  rw [spec_op]
  cases var_of op.output <;> exact ⟨rfl, rfl⟩

/-- One operation and its renamed form. -/
theorem FramesMatch.exec {s s' : frame_t (VarnodeKind × Int × UInt64) V W} (h : FramesMatch m tops s s')
    {op : PcodeInsn} (hop : LiftedOp op) (count : Nat) {entry entry' : VarnodeKind × Int × UInt64 → V}
    {edge edge' : Option Nat} :
    FramesMatch m (spec_op tops count op).2.1 (op.exec m Varnode.name_cell entry edge s)
      ((spec_op tops count op).1.exec m Varnode.name_cell entry' edge' s') := by
  obtain ⟨hkind, hsize⟩ : (spec_op tops count op).1.op = op.op ∧ (spec_op tops count op).1.output.size = op.output.size :=
    spec_op_shape count op
  have hseq := (spec_op_keeps tops count op).1
  have hinputs := spec_op_inputs tops count hop.seq
  have hvoid : op.op.void = true → (spec_op tops count op).2.1 = tops := by
    intro hvoid
    rw [(spec_op_none tops count (hop.void hvoid)).2]
  by_cases hreturned : s.returned.isSome = true
  · have hreturned' : s'.returned.isSome = true := h.returned ▸ hreturned
    rw [exec_skip (Or.inl hreturned), exec_skip (Or.inl hreturned')]
    refine ⟨fun hnone => ?_, h.world, h.branches, h.returned⟩
    rw [hnone] at hreturned
    cases hreturned
  have hnone : s.returned = none := Option.not_isSome_iff_eq_none.mp hreturned
  have henv := h.env hnone
  by_cases hnop : op.op = .nop
  · rw [exec_skip (Or.inr hnop), exec_skip (Or.inr (hkind.trans hnop)), hvoid (by rw [hnop]; rfl)]
    exact h
  have hskip : ¬ (s.returned.isSome = true ∨ op.op = .nop) := fun h => h.elim hreturned hnop
  have hskip' : ¬ (s'.returned.isSome = true ∨ (spec_op tops count op).1.op = .nop) := by
    rw [← h.returned, hkind]
    exact hskip
  have hreads : op.inputs.map (read m Varnode.name_cell s.env) =
      (spec_op tops count op).1.inputs.map (read m Varnode.name_cell s'.env) := by
    rw [hinputs, List.map_map]
    exact List.map_congr_left fun vn hvn => henv vn (hop.node vn hvn) trivial
  have hargs : op.inputs.map (operand m Varnode.name_cell s.env) =
      (spec_op tops count op).1.inputs.map (operand m Varnode.name_cell s'.env) := by
    rw [hinputs, List.map_map]
    refine List.map_congr_left fun vn hvn => ?_
    obtain ⟨-, -, hsize, hname⟩ := renamed_keeps tops vn
    show operand_t.mk vn.size vn.name _ = operand_t.mk (renamed tops vn).size (renamed tops vn).name _
    rw [hsize, hname, henv vn (hop.node vn hvn) trivial]
  by_cases hret : op.op = .return
  · rw [exec_return hskip hop.seq hret, exec_return hskip' (by rw [hseq]; exact hop.seq) (hkind.trans hret), hreads]
    refine ⟨?_, h.world, h.branches, rfl⟩
    intro hnone
    cases hnone
  by_cases hjumps : op.op.jumps = true
  · have hjump : op.op.void = true := by
      revert hjumps
      cases op.op <;> decide
    rw [exec_jump hskip hop.seq hjumps, exec_jump hskip' (by rw [hseq]; exact hop.seq) (by rw [hkind]; exact hjumps),
      hvoid hjump, hargs, hkind]
    exact ⟨fun _ => henv, h.world, by rw [h.branches], h.returned⟩
  · rw [exec_compute hskip hop.seq hret hjumps, exec_compute hskip' (by rw [hseq]; exact hop.seq) (by rw [hkind]; exact hret)
      (by rw [hkind]; exact hjumps), hkind, hsize, ← hargs, ← h.world]
    refine ⟨fun _ => ?_, rfl, h.branches, h.returned⟩
    by_cases hv : op.op.void = true
    · simp only [if_pos hv]
      rw [hvoid hv]
      exact henv
    · simp only [if_neg hv]
      cases hvar : var_of op.output with
      | none =>
        rw [(spec_op_none tops count hvar).1, (spec_op_none tops count hvar).2]
        exact henv.write_other hvar _
      | some v =>
        rw [(spec_op_some tops count hvar).1, (spec_op_some tops count hvar).2]
        intro vn hvn _
        exact henv.write_var ⟨hop.output, hop.unversioned⟩ hvar _ _ vn hvn (Or.inl trivial)

theorem FramesMatch.exec_ops {s s' : frame_t (VarnodeKind × Int × UInt64) V W} (h : FramesMatch m tops s s')
    {ops : List PcodeInsn} (hops : ∀ op ∈ ops, LiftedOp op) (count : Nat)
    {entry entry' : VarnodeKind × Int × UInt64 → V} {edge edge' : Option Nat} :
    FramesMatch m (spec_ops tops count ops).2.1 (hype.exec_ops m Varnode.name_cell entry edge ops s)
      (hype.exec_ops m Varnode.name_cell entry' edge' (spec_ops tops count ops).1 s') := by
  induction ops generalizing tops count s s' with
  | nil => exact h
  | cons op ops ih =>
    exact ih (h.exec (hops op List.mem_cons_self) count) (fun o ho => hops o (List.mem_cons_of_mem _ ho)) _

end Matching

section Simulation

variable {V W : Type} {m : machine_t V W} {func placed func' : PcodeFunc} {vars : List Int}
  {idom : Nat → Option Nat} {phis : Int → List Nat} {log : List visit_t}

theorem spec_ops_append (tops : tops_t) (count : Nat) (ops ops' : List PcodeInsn) :
    spec_ops tops count (ops ++ ops') =
      ((spec_ops tops count ops).1 ++ (spec_ops (spec_ops tops count ops).2.1 (spec_ops tops count ops).2.2 ops').1,
        (spec_ops (spec_ops tops count ops).2.1 (spec_ops tops count ops).2.2 ops').2) := by
  induction ops generalizing tops count with
  | nil => rfl
  | cons op ops ih =>
    rw [List.cons_append, spec_ops, ih, spec_ops]
    rfl

theorem phi_output_fresh (hlifted : Lifted func) {v : Int} (hv : v ∈ (collect_defs func).all_vars) :
    FreshNode (phi_output [] v) := ⟨(phi_output_plain hlifted hv).1, fun _ => phi_output_offset v⟩

/-- The phis of a block. On entry the values match under the versions at the end of the predecessor; each phi brings
one more variable to its new version, and those without a phi have one version already. -/
theorem phis_match (hlifted : Lifted func) {vs : List Int} (hvs : ∀ v ∈ vs, v ∈ (collect_defs func).all_vars)
    {came tops : tops_t} (count : Nat) {n j : Nat} (hj : j < n) {args : List (Nat × tops_t)}
    (hargs : ∀ op : PcodeInsn, op.seq = -1 → (apply_arg args op).inputs[j]? = op.inputs[j]?.map (renamed came))
    {env entry : VarnodeKind × Int × UInt64 → V} (hentry : Matches m (fun _ => True) came env entry)
    {s : frame_t (VarnodeKind × Int × UInt64) V W} (hreturned : s.returned = none)
    (hmatch : Matches m (fun vn => ∀ v ∈ vs, var_of vn ≠ some v) tops env s.env) :
    ∃ env', hype.exec_ops m Varnode.name_cell entry (some j)
        ((spec_ops tops count (vs.map fun v => phi [] v n)).1.map (apply_arg args)) s = { s with env := env' } ∧
      Matches m (fun _ => True) (spec_ops tops count (vs.map fun v => phi [] v n)).2.1 env env' := by
  induction vs generalizing tops count s with
  | nil => exact ⟨s.env, rfl, fun vn hvn _ => hmatch vn hvn fun v hv => absurd hv List.not_mem_nil⟩
  | cons v vs ih =>
    have hv := hvs v List.mem_cons_self
    have hfresh := phi_output_fresh hlifted hv
    have hvar := (phi_output_plain hlifted hv).2.2
    have hvar' : var_of (phi [] v n).output = some v := hvar
    obtain ⟨houtput, hnext⟩ := spec_op_some tops count hvar'
    obtain ⟨hkind, houtput', hseq, -⟩ := apply_arg_keeps args (spec_op tops count (phi [] v n)).1
    have hspec := spec_op_keeps tops count (phi [] v n)
    have hinputs : (spec_op tops count (phi [] v n)).1.inputs = List.replicate n (phi_output [] v) := by
      rw [spec_op]
      cases var_of (phi [] v n).output <;> rfl
    obtain ⟨written, hwritten⟩ : ∃ written, written = write Varnode.name_cell s.env
        { phi_output [] v with offset := UInt64.ofNat (count + 1) }
        (read m Varnode.name_cell env (phi_output [] v)) := ⟨_, rfl⟩
    -- The phi copies the value that the variable has.
    have hexec : (apply_arg args (spec_op tops count (phi [] v n)).1).exec m Varnode.name_cell entry (some j) s =
        { s with env := written } := by
      have hget := hargs (spec_op tops count (phi [] v n)).1 hspec.1
      rw [hinputs, List.getElem?_replicate, if_pos hj, Option.map_some] at hget
      rw [exec_phi, Option.bind_some, hget, houtput', houtput]
      · simp only
        rw [hwritten, hentry _ hfresh trivial]
        rfl
      · rw [hreturned, hkind, (spec_op_shape count _).1]
        intro h
        obtain h | h := h
        · cases h
        · cases h
      · rw [hseq, hspec.1]
        rfl
    have hself : write Varnode.name_cell env (phi_output [] v) (read m Varnode.name_cell env (phi_output [] v)) = env := by
      rw [write_cell (name_cell_var hvar), read_cell (name_cell_var hvar), Function.update_eq_self]
    have hstep := hmatch.write_var hfresh hvar (count + 1) (read m Varnode.name_cell env (phi_output [] v))
    rw [hself, ← hwritten] at hstep
    have hrest : Matches m (fun vn => ∀ w ∈ vs, var_of vn ≠ some w) (spec_op tops count (phi [] v n)).2.1 env
        written := by
      intro vn hvn hother
      rw [hnext]
      refine hstep vn hvn ?_
      by_cases hw : var_of vn = some v
      · exact Or.inr hw
      · refine Or.inl fun w hmem => ?_
        obtain heq | hmem := List.mem_cons.mp hmem
        · rw [heq]
          exact hw
        · exact hother w hmem
    obtain ⟨env', hrun, hmatch'⟩ := ih (fun w hw => hvs w (List.mem_cons_of_mem _ hw))
      (spec_op tops count (phi [] v n)).2.2 (s := { s with env := written }) hreturned hrest
    refine ⟨env', ?_, hmatch'⟩
    rw [List.map_cons, spec_ops, List.map_cons, hype.exec_ops, List.foldl_cons, hexec]
    exact hrun

theorem renamed_congr {tops tops' : tops_t} {vn : Varnode} (h : ∀ v, var_of vn = some v → tops v = tops' v) :
    renamed tops vn = renamed tops' vn := by
  rw [renamed, renamed]
  cases hv : var_of vn with
  | none => rfl
  | some v => rw [Option.bind_some, Option.bind_some, h v hv]

/-- The function under way and its form after the construction: at one place, under the versions that the block before
has left. -/
inductive Simulated (m : machine_t V W) (func placed : PcodeFunc) (log : List visit_t) :
    state_t (VarnodeKind × Int × UInt64) V W → state_t (VarnodeKind × Int × UInt64) V W → Prop where
  | start {env env' : VarnodeKind × Int × UInt64 → V} {world : W}
      (hmatch : Matches m (fun _ => True) (initial_names (collect_defs func)).tops env env') :
      Simulated m func placed log (.entering (entry_block func) none env world)
        (.entering (entry_block func) none env' world)
  | entering {p : visit_t} {b : Nat} {env env' : VarnodeKind × Int × UInt64 → V} {world : W} (hp : p ∈ log)
      (hsucc : b ∈ succs func p.block) (hmatch : Matches m (fun _ => True) (p.leaves placed) env env') :
      Simulated m func placed log (.entering b (some p.block) env world) (.entering b (some p.block) env' world)
  | returned {values : List V} {env env' : VarnodeKind × Int × UInt64 → V} {world : W} :
      Simulated m func placed log (.returned values env world) (.returned values env' world)
  | left {env env' : VarnodeKind × Int × UInt64 → V} {world : W} :
      Simulated m func placed log (.left env world) (.left env' world)

theorem Simulated.alike {s s' : state_t (VarnodeKind × Int × UInt64) V W} (h : Simulated m func placed log s s') :
    Alike (fun _ => False) s s' := by
  cases h with
  | start => exact .entering fun _ h => h.elim
  | entering => exact .entering fun _ h => h.elim
  | returned => exact .returned fun _ h => h.elim
  | left => exact .left fun _ h => h.elim

theorem leave_simulated {e : visit_t} (he : e ∈ log) {blk blk' : PcodeBlock} (hblk : func.blocks[e.block]? = some blk)
    (hsuccs : blk'.succs = blk.succs) {s s' : frame_t (VarnodeKind × Int × UInt64) V W}
    (h : FramesMatch m (e.leaves placed) s s') :
    Simulated m func placed log (blk.leave m e.block s) (blk'.leave m e.block s') := by
  rw [PcodeBlock.leave, PcodeBlock.leave, hsuccs, ← h.returned, ← h.branches, ← h.world]
  cases hreturned : s.returned with
  | some values => exact .returned
  | none =>
    simp only
    cases hnext : blk.succs[m.pick s.branches s.world]? with
    | none => exact .left
    | some next =>
      refine .entering he ?_ (h.env hreturned)
      rw [succs, hblk]
      exact List.mem_of_getElem? hnext

/-- A block behind its phis. -/
theorem rest_match (hlifted : Lifted func) {e : visit_t} {blk : PcodeBlock} (hblk : func.blocks[e.block]? = some blk)
    {args : List (Nat × tops_t)} {vs : List Int} {n : Nat}
    (hdone : e.done placed = spec_ops e.tops e.count ((vs.map fun v => phi [] v n) ++ blk.ops))
    {edge edge' : Option Nat} {env env' entry' : VarnodeKind × Int × UInt64 → V} {world : W}
    {s' : frame_t (VarnodeKind × Int × UInt64) V W}
    (hphis : hype.exec_ops m Varnode.name_cell entry' edge'
      ((spec_ops e.tops e.count (vs.map fun v => phi [] v n)).1.map (apply_arg args)) s' =
        { env := env', world := world })
    (hmatch : Matches m (fun _ => True) (spec_ops e.tops e.count (vs.map fun v => phi [] v n)).2.1 env env') :
    FramesMatch m (e.leaves placed)
      (hype.exec_ops m Varnode.name_cell env edge blk.ops { env := env, world := world })
      (hype.exec_ops m Varnode.name_cell entry' edge' ((e.done placed).1.map (apply_arg args)) s') := by
  have hops := hlifted blk (List.mem_of_getElem? hblk)
  have hplain : ∀ (tops : tops_t) (count : Nat),
      (spec_ops tops count blk.ops).1.map (apply_arg args) = (spec_ops tops count blk.ops).1 := by
    intro tops count
    refine (List.map_congr_left fun o ho => ?_).trans (List.map_id _)
    refine (apply_arg_keeps args o).2.2.2 ?_
    have hmem := List.mem_map_of_mem (f := PcodeInsn.seq) ho
    rw [spec_ops_seq] at hmem
    obtain ⟨op, hop, hseq⟩ := List.mem_map.mp hmem
    rw [← hseq]
    exact (hops op hop).seq
  rw [visit_t.leaves, hdone, spec_ops_append, List.map_append, hplain]
  show FramesMatch m _ _ (List.foldl _ _ _)
  rw [List.foldl_append]
  change FramesMatch m _ _ (hype.exec_ops m Varnode.name_cell entry' edge' _
    (hype.exec_ops m Varnode.name_cell entry' edge' _ s'))
  rw [hphis]
  have hstart : FramesMatch m (spec_ops e.tops e.count (vs.map fun v => phi [] v n)).2.1
      { env := env, world := world } { env := env', world := world } := ⟨fun _ => hmatch, rfl, rfl, rfl⟩
  exact hstart.exec_ops hops _

/-- A block that is entered from the outside has no phis when nothing else leads to it. -/
theorem Built.no_phi (h : Built func vars idom phis placed func' log) {b : Nat} (hfew : (preds func b).length < 2)
    (v : Int) : b ∉ phis v := by
  intro hmem
  obtain ⟨d, -, hpath⟩ := (h.iterated v b).mp hmem
  cases hpath with
  | single hstep => exact notMem_compute_dom_frontiers hfew hstep
  | tail _ hstep => exact notMem_compute_dom_frontiers hfew hstep

/-- One block and its form after the construction, entered over the same edge. -/
theorem Built.block (h : Built func vars idom phis placed func' log) (hlifted : Lifted func) (hlinked : Linked func)
    (hentry : preds func (entry_block func) = []) (hvars : ∀ v, v ∈ vars ↔ v ∈ (collect_defs func).all_vars)
    {e : visit_t} (he : e ∈ log) (came : Option Nat) {env env' : VarnodeKind × Int × UInt64 → V} (world : W)
    (hcame : (e.block = entry_block func ∧ Matches m (fun _ => True) e.tops env env') ∨
      ∃ p ∈ log, came = some p.block ∧ e.block ∈ succs func p.block ∧
        Matches m (fun _ => True) (p.leaves placed) env env') :
    ∃ blk blk', func.blocks[e.block]? = some blk ∧ func'.blocks[e.block]? = some blk' ∧ blk'.succs = blk.succs ∧
      FramesMatch m (e.leaves placed)
        (hype.exec_ops m Varnode.name_cell env (blk.edge came) blk.ops { env := env, world := world })
        (hype.exec_ops m Varnode.name_cell env' (blk'.edge came) blk'.ops { env := env', world := world }) := by
  have hvars' : ∀ v ∈ vars, v ∈ (collect_defs func).all_vars := fun v hv => (hvars v).mp hv
  obtain ⟨blk, -, hblk, hlt, hops, -, -⟩ := h.ops hlinked he
  obtain ⟨_, args, hsame, hblk', hargs⟩ := h.args hlinked he
  rw [hblk, Option.some.injEq] at hsame
  rw [← hsame] at hblk'
  have hpreds : preds func e.block = blk.preds := by
    rw [preds, hblk]
    rfl
  let vs := vars.reverse.filter fun v => e.block ∈ phis v
  have hvs : ∀ v, v ∈ vs ↔ v ∈ vars ∧ e.block ∈ phis v := by
    intro v
    rw [List.mem_filter, List.mem_reverse, decide_eq_true_iff]
  have hdone : e.done placed = spec_ops e.tops e.count ((vs.map fun v => phi [] v blk.preds.length) ++ blk.ops) := by
    rw [visit_t.done, hops]
    rfl
  refine ⟨blk, { blk with ops := (e.done placed).1.map (apply_arg args) }, hblk, hblk', rfl, ?_⟩
  obtain ⟨heq, hmatch⟩ | ⟨p, hp, rfl, hsucc, hmatch⟩ := hcame
  · -- The entry has no phis.
    have hnil : vs = [] := by
      refine List.eq_nil_iff_forall_not_mem.mpr fun v hv => ?_
      refine h.no_phi ?_ v ((hvs v).mp hv).2
      rw [heq, hentry]
      exact Nat.succ_pos 1
    rw [hnil] at hdone
    have hnone : hype.exec_ops m Varnode.name_cell env' (PcodeBlock.edge { blk with
        ops := (e.done placed).1.map (apply_arg args) } came)
        ((spec_ops e.tops e.count (([] : List Int).map fun v => phi [] v blk.preds.length)).1.map (apply_arg args))
        { env := env', world := world } = { env := env', world := world } := rfl
    exact rest_match hlifted hblk hdone hnone hmatch
  · have hne : e.block ≠ entry_block func := by
      intro heq
      have hmem := (hlinked.linked p.block e.block hlt).mpr hsucc
      rw [heq, hentry] at hmem
      exact absurd hmem List.not_mem_nil
    have hmem : p.block ∈ blk.preds := by
      rw [← hpreds]
      exact (hlinked.linked p.block e.block hlt).mpr hsucc
    obtain ⟨j, hj⟩ := Option.isSome_iff_exists.mp (List.isSome_idxOf?.mpr hmem)
    obtain ⟨hjlt, -⟩ := List.idxOf?_eq_some_iff.mp hj
    -- Variables without a phi have the same version over every edge.
    have hstart : Matches m (fun vn => ∀ v ∈ vs, var_of vn ≠ some v) e.tops env env' := by
      intro vn hvn hother
      rw [hmatch vn hvn trivial]
      refine congrArg _ (renamed_congr fun v hv => ?_).symm
      refine h.agrees_at_join hlifted hlinked hvars' he hp hsucc hne fun hphi => ?_
      obtain ⟨d, hd, -⟩ := (h.iterated v _).mp hphi
      obtain ⟨op, hop, hvar⟩ := (mem_def_blocks hlifted).mp hd
      exact hother v ((hvs v).mpr ⟨(hvars v).mpr ((mem_all_vars hlifted).mpr ⟨d, op, hop, hvar⟩), hphi⟩) hv
    obtain ⟨env1, hphis, hmatch1⟩ := phis_match (s := { env := env', world := world }) hlifted
      (fun v hv => hvars' v ((hvs v).mp hv).1) e.count hjlt
      (hargs p hp hsucc j (hpreds ▸ hj)) hmatch rfl hstart
    have hedge : PcodeBlock.edge { blk with ops := (e.done placed).1.map (apply_arg args) } (some p.block) = some j := hj
    rw [hedge]
    exact rest_match hlifted hblk hdone hphis hmatch1

theorem Built.step (h : Built func vars idom phis placed func' log) (hlifted : Lifted func) (hlinked : Linked func)
    (hentry : preds func (entry_block func) = []) (hvars : ∀ v, v ∈ vars ↔ v ∈ (collect_defs func).all_vars)
    {s s' : state_t (VarnodeKind × Int × UInt64) V W} (hsim : Simulated m func placed log s s') :
    Simulated m func placed log (func.step m Varnode.name_cell s) (func'.step m Varnode.name_cell s') := by
  cases hsim with
  | returned => exact .returned
  | left => exact .left
  | @start env env' world hmatch =>
    obtain ⟨e, he, hblock⟩ := h.visit hlinked Dominance.reachable_root
    rw [← h.start e he hblock] at hmatch
    obtain ⟨blk, blk', hblk, hblk', hsuccs, hframes⟩ :=
      h.block hlifted hlinked hentry hvars he none world (Or.inl ⟨hblock, hmatch⟩)
    rw [← hblock, PcodeFunc.step, PcodeFunc.step, hblk, hblk']
    exact leave_simulated he hblk hsuccs hframes
  | @entering p b env env' world hp hsucc hmatch =>
    by_cases hlt : b < func.blocks.length
    · have hp' := ((compute_reverse_postorder_spec hlinked.nonempty).mem _).mp ((h.visited _).mp (List.mem_map_of_mem hp))
      obtain ⟨e, he, rfl⟩ := h.visit hlinked (hp'.step ⟨hsucc, hlt⟩)
      obtain ⟨blk, blk', hblk, hblk', hsuccs, hframes⟩ :=
        h.block hlifted hlinked hentry hvars he (some p.block) world (Or.inr ⟨p, hp, rfl, hsucc, hmatch⟩)
      rw [PcodeFunc.step, PcodeFunc.step, hblk, hblk']
      exact leave_simulated he hblk hsuccs hframes
    · have hnone : func.blocks[b]? = none := List.getElem?_eq_none (Nat.not_lt.mp hlt)
      have hnone' : func'.blocks[b]? = none := by
        have hplaced := h.blocks b
        rw [hnone, Option.map_none, List.getElem?_eq_none_iff, ← h.renames.1] at hplaced
        exact List.getElem?_eq_none hplaced
      rw [PcodeFunc.step, PcodeFunc.step, hnone, hnone']
      exact .left

/-- The construction of SSA form keeps the meaning of a function: block after block, with phis that take the values of
the edge that was followed, it does what the function does, and returns the same values. -/
theorem build_keeps_meaning (m : machine_t V W) (hlifted : Lifted func) (hlinked : Linked func)
    (hentry : preds func (entry_block func) = []) (hvars : ∀ v, v ∈ vars ↔ v ∈ (collect_defs func).all_vars)
    {fuel : Nat} (hfuel : func.blocks.length * func.blocks.length + 2 ≤ fuel) :
    ∃ func', build vars fuel func = some func' ∧
      ∀ (n : Nat) (env : VarnodeKind × Int × UInt64 → V) (world : W),
        Alike (fun _ => False) (func.run m Varnode.name_cell n (.entering (entry_block func) none env world))
          (func'.run m Varnode.name_cell n (.entering (entry_block func) none env world)) := by
  obtain ⟨idom, phis, placed, func', log, hrun, hbuilt⟩ :=
    build_spec hlifted hlinked (fun v hv => (hvars v).mp hv) hfuel
  have hruns : ∀ (n : Nat) (s s' : state_t (VarnodeKind × Int × UInt64) V W), Simulated m func placed log s s' →
      Simulated m func placed log (func.run m Varnode.name_cell n s) (func'.run m Varnode.name_cell n s') := by
    intro n
    induction n with
    | zero => exact fun _ _ h => h
    | succ n ih => exact fun s s' h => ih _ _ (hbuilt.step hlifted hlinked hentry hvars h)
  refine ⟨func', hrun, fun n env world => (hruns n _ _ (.start ?_)).alike⟩
  -- At the start every variable has version 0, or none.
  intro vn hvn _
  refine congrArg _ ?_
  rw [renamed]
  cases hvar : var_of vn with
  | none => rfl
  | some v =>
    have hzero := hvn.zero (by rw [hvar]; rfl)
    have htops : (initial_names (collect_defs func)).tops v = some 0 ∨
        (initial_names (collect_defs func)).tops v = none := by
      rw [names_t.tops, initial_names]
      by_cases hv : v ∈ (collect_defs func).all_vars
      · simp only [if_pos hv, Option.bind_some, List.head?_cons, true_or]
      · simp only [if_neg hv, Option.bind_none, or_true]
    obtain htops | htops := htops
    · rw [Option.bind_some, htops]
      show vn = { vn with offset := 0 }
      rw [← hzero]
    · rw [Option.bind_some, htops]

theorem sign_func_meaning :
    ∃ func', build (collect_defs sign_func).all_vars.dedup 18 sign_func = some func' ∧
      ∀ (n : Nat) (env : VarnodeKind × Int × UInt64 → UInt64) (world : Unit),
        Alike (fun _ => False)
          (sign_func.run sum_machine Varnode.name_cell n (.entering (entry_block sign_func) none env world))
          (func'.run sum_machine Varnode.name_cell n (.entering (entry_block sign_func) none env world)) :=
  build_keeps_meaning sum_machine (by decide) sign_func_linked (by decide) (fun _ => List.mem_dedup) (by decide)

end Simulation

end SSABuilder

end hype
