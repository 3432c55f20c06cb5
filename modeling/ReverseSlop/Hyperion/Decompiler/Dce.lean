import ReverseSlop.Hyperion.Decompiler.Ir

namespace hype

namespace DCE

def is_flag_reg (id : Int) : Bool := id ≥ 100 ∧ id ≤ 103

def is_callee_saved (id : Int) : Bool :=
  id = 3 ∨ id = 5 ∨ id = 6 ∨ id = 7 ∨ id = 12 ∨ id = 13 ∨ id = 14 ∨ id = 15

def to_nop (op : PcodeInsn) : PcodeInsn := { op with op := .nop }

/-- The operations that neither pass takes out. -/
def pinned (op : PcodeOp) : Bool :=
  op = .nop ∨ op = .call ∨ op = .intrinsic ∨ op = .return ∨ op = .cbranch ∨ op = .branch

/-- The first pass: flags and restored registers that nothing reads. -/
def dead_prologue (uses : UseCountMap) (op : PcodeInsn) : Bool :=
  ¬ pinned op.op ∧
    ((op.output.valid ∧ is_flag_reg op.output.id ∧ ¬ has_use uses op.output) ∨
      (op.op = .load ∧ op.output.valid ∧ op.output.is_reg ∧ is_callee_saved op.output.id ∧ ¬ has_use uses op.output))

/-- The second pass: every result that nothing reads, but for the register of the return value. -/
def dead (uses : UseCountMap) (op : PcodeInsn) : Bool :=
  ¬ pinned op.op ∧ op.op ≠ .store ∧ op.output.valid ∧ ¬ (op.output.is_reg ∧ op.output.id = 0) ∧
    ¬ has_use uses op.output

def remove (doomed : PcodeInsn → Bool) (op : PcodeInsn) : PcodeInsn := if doomed op then to_nop op else op

/-- Passes with counts of their own, until one changes nothing. -/
def passes : Nat → PcodeFunc → PcodeFunc
  | 0, func => func
  | n + 1, func =>
    if func.blocks.any fun blk => blk.ops.any (dead (count_uses func))
    then passes n (func.map_ops (remove (dead (count_uses func)))) else func

def run (func : PcodeFunc) : PcodeFunc :=
  (passes 6 (func.map_ops (remove (dead_prologue (count_uses func))))).erase_nops

end DCE

/-- The elimination of copies at the end of the propagation: the same passes, twelve of them. -/
def Propagate.dead_copy_elim (func : PcodeFunc) : PcodeFunc := (DCE.passes 12 func).erase_nops

namespace DCE

/-- No store is taken for the write of a flag. -/
def StoresBare (func : PcodeFunc) : Prop :=
  ∀ blk ∈ func.blocks, ∀ op ∈ blk.ops, op.op = .store → is_flag_reg op.output.id = false

/-- The cells of the return value. -/
def Rax (k : VnKey) : Prop := k.kind = .reg ∧ k.id = 0

/-- The cells that the operations of a function read, and those of the return value. -/
def Kept (func : PcodeFunc) (k : VnKey) : Prop := k ∈ func.used_keys ∨ Rax k

/-- What may be taken out of a function. -/
structure Removable (func : PcodeFunc) (op : PcodeInsn) : Prop where
  quiet : op.op.acts = false
  straight : op.op.jumps = false
  stays : op.op ≠ .return
  unread : op.output.is_const = false → ¬ Kept func op.output.key

theorem not_pinned {op : PcodeOp} (h : ¬ pinned op = true) (hstore : op ≠ .store) :
    op.acts = false ∧ op.jumps = false ∧ op ≠ .return := by
  rw [pinned, decide_eq_true_iff] at h
  rw [PcodeOp.acts, PcodeOp.jumps, decide_eq_false_iff_not, decide_eq_false_iff_not]
  tauto

theorem dead_removable {func : PcodeFunc} {op : PcodeInsn} (hdead : dead (count_uses func) op = true) :
    Removable func op := by
  rw [dead, decide_eq_true_iff] at hdead
  obtain ⟨hpinned, hstore, -, hrax, hunused⟩ := hdead
  obtain ⟨hquiet, hstraight, hstays⟩ := not_pinned hpinned hstore
  refine ⟨hquiet, hstraight, hstays, ?_⟩
  intro _ hkept
  obtain hused | hreg := hkept
  · exact hunused (has_use_iff.mpr hused)
  · exact hrax ⟨decide_eq_true hreg.1, hreg.2⟩

theorem dead_prologue_removable {func : PcodeFunc} (hbare : StoresBare func) {blk : PcodeBlock} {op : PcodeInsn}
    (hblk : blk ∈ func.blocks) (hop : op ∈ blk.ops) (hdead : dead_prologue (count_uses func) op = true) :
    Removable func op := by
  rw [dead_prologue, decide_eq_true_iff] at hdead
  obtain ⟨hpinned, hcase⟩ := hdead
  have hunused : ¬ has_use (count_uses func) op.output = true := by
    obtain hflag | hload := hcase
    · exact hflag.2.2
    · exact hload.2.2.2.2
  have hstore : op.op ≠ .store := by
    intro hstore
    obtain hflag | hload := hcase
    · exact absurd hflag.2.1 (ne_true_of_eq_false (hbare blk hblk op hop hstore))
    · rw [hstore] at hload
      cases hload.1
  have hid : op.output.id ≠ 0 := by
    intro hid
    rw [hid] at hcase
    obtain hflag | hload := hcase
    · exact absurd hflag.2.1 (by decide)
    · exact absurd hload.2.2.2.1 (by decide)
  obtain ⟨hquiet, hstraight, hstays⟩ := not_pinned hpinned hstore
  refine ⟨hquiet, hstraight, hstays, ?_⟩
  intro _ hkept
  obtain hused | hreg := hkept
  · exact hunused (has_use_iff.mpr hused)
  · exact hid hreg.2

section

variable {V W : Type} (m : machine_t V W)

variable {m} {keep : VnKey → Prop}

theorem value_cell_eq (vn : Varnode) :
    vn.is_const = true ∧ vn.value_cell = none ∨ vn.is_const = false ∧ vn.value_cell = some vn.key := by
  cases hconst : vn.is_const with
  | true => exact Or.inl ⟨rfl, by rw [Varnode.value_cell, hconst]; rfl⟩
  | false => exact Or.inr ⟨rfl, by rw [Varnode.value_cell, hconst]; rfl⟩

theorem read_alike {env env' : VnKey → V} {vn : Varnode} (hagree : ∀ k, keep k → env k = env' k)
    (hkeep : keep vn.key) : read m Varnode.value_cell env vn = read m Varnode.value_cell env' vn := by
  obtain ⟨-, hcell⟩ | ⟨-, hcell⟩ := value_cell_eq vn
  · rw [read_const hcell, read_const hcell]
  · rw [read_cell hcell, read_cell hcell]
    exact hagree _ hkeep

theorem write_alike {env env' : VnKey → V} (vn : Varnode) {v : V} (hagree : ∀ k, keep k → env k = env' k) :
    ∀ k, keep k → write Varnode.value_cell env vn v k = write Varnode.value_cell env' vn v k := by
  intro k hk
  obtain ⟨-, hcell⟩ | ⟨-, hcell⟩ := value_cell_eq vn
  · rw [write_const hcell, write_const hcell]
    exact hagree k hk
  · rw [write_cell hcell, write_cell hcell]
    by_cases heq : k = vn.key
    · rw [heq, Function.update_self, Function.update_self]
    · rw [Function.update_of_ne heq, Function.update_of_ne heq]
      exact hagree k hk

/-- A write that nobody reads. -/
theorem write_dropped {env env' : VnKey → V} {vn : Varnode} {v : V} (hagree : ∀ k, keep k → env k = env' k)
    (hunread : vn.is_const = false → ¬ keep vn.key) :
    ∀ k, keep k → write Varnode.value_cell env vn v k = env' k := by
  intro k hk
  obtain ⟨-, hcell⟩ | ⟨hconst, hcell⟩ := value_cell_eq vn
  · rw [write_const hcell]
    exact hagree k hk
  · have hne : k ≠ vn.key := fun heq => hunread hconst (heq ▸ hk)
    rw [write_cell hcell, Function.update_of_ne hne]
    exact hagree k hk

theorem operands_alike {env env' : VnKey → V} {inputs : List Varnode} (hagree : ∀ k, keep k → env k = env' k)
    (hkeep : ∀ vn ∈ inputs, keep vn.key) :
    inputs.map (operand m Varnode.value_cell env) = inputs.map (operand m Varnode.value_cell env') := by
  apply List.map_congr_left
  intro vn hvn
  rw [operand, operand, read_alike hagree (hkeep vn hvn)]

/-- An operation that stays does the same to two blocks that agree on what it reads. -/
theorem exec_alike {entry entry' : VnKey → V} {edge : Option Nat} {op : PcodeInsn} {s s' : frame_t VnKey V W}
    (hentry : ∀ k, keep k → entry k = entry' k) (hkeep : op.op ≠ .nop → ∀ vn ∈ op.inputs, keep vn.key)
    (halike : FramesAlike keep s s') :
    FramesAlike keep (op.exec m Varnode.value_cell entry edge s) (op.exec m Varnode.value_cell entry' edge s') := by
  by_cases hskip : s.returned.isSome = true ∨ op.op = .nop
  · have hskip' := hskip
    rw [halike.returned] at hskip'
    rw [exec_skip hskip, exec_skip hskip']
    exact halike
  have hskip' := hskip
  rw [halike.returned] at hskip'
  have hinputs := hkeep fun hnop => hskip (Or.inr hnop)
  have hargs := operands_alike (m := m) halike.env hinputs
  by_cases hphi : op.seq = -1
  · rw [exec_phi hskip hphi, exec_phi hskip' hphi]
    cases hvn : edge.bind fun i => op.inputs[i]? with
    | none => exact halike
    | some vn =>
      obtain ⟨i, -, hi⟩ := Option.bind_eq_some_iff.mp hvn
      refine ⟨?_, halike.world, halike.branches, halike.returned⟩
      simp only [read_alike hentry (hinputs vn (List.mem_of_getElem? hi))]
      exact write_alike op.output halike.env
  by_cases hreturn : op.op = .return
  · rw [exec_return hskip hphi hreturn, exec_return hskip' hphi hreturn]
    refine ⟨halike.env, halike.world, halike.branches, ?_⟩
    rw [Option.some.injEq]
    exact List.map_congr_left fun vn hvn => read_alike halike.env (hinputs vn hvn)
  by_cases hjumps : op.op.jumps = true
  · rw [exec_jump hskip hphi hjumps, exec_jump hskip' hphi hjumps, hargs, halike.branches]
    exact ⟨halike.env, halike.world, rfl, halike.returned⟩
  rw [exec_compute hskip hphi hreturn hjumps, exec_compute hskip' hphi hreturn hjumps, hargs, halike.world]
  refine ⟨?_, rfl, halike.branches, halike.returned⟩
  by_cases hvoid : op.op.void = true
  · simp only [hvoid, if_true]
    exact halike.env
  · simp only [hvoid, Bool.false_eq_true, if_false]
    exact write_alike op.output halike.env

/-- An operation that is taken out did nothing that is read. -/
theorem exec_removed {func : PcodeFunc} {entry : VnKey → V} {edge : Option Nat} {op : PcodeInsn}
    {s s' : frame_t VnKey V W} (hremovable : Removable func op) (halike : FramesAlike (Kept func) s s') :
    FramesAlike (Kept func) (op.exec m Varnode.value_cell entry edge s) s' := by
  by_cases hskip : s.returned.isSome = true ∨ op.op = .nop
  · rw [exec_skip hskip]
    exact halike
  by_cases hphi : op.seq = -1
  · rw [exec_phi hskip hphi]
    cases edge.bind fun i => op.inputs[i]? with
    | none => exact halike
    | some vn =>
      exact ⟨write_dropped halike.env hremovable.unread, halike.world, halike.branches, halike.returned⟩
  rw [exec_compute hskip hphi hremovable.stays (ne_true_of_eq_false hremovable.straight),
    if_neg (ne_true_of_eq_false hremovable.quiet)]
  refine ⟨?_, halike.world, halike.branches, halike.returned⟩
  by_cases hvoid : op.op.void = true
  · simp only [hvoid, if_true]
    exact halike.env
  · simp only [hvoid, Bool.false_eq_true, if_false]
    exact write_dropped halike.env hremovable.unread

variable {func : PcodeFunc} {doomed : PcodeInsn → Bool}
  (hdoomed : ∀ blk ∈ func.blocks, ∀ op ∈ blk.ops, doomed op = true → Removable func op)

include hdoomed

theorem exec_ops_alike {entry entry' : VnKey → V} {edge : Option Nat} {blk : PcodeBlock} (hblk : blk ∈ func.blocks)
    (hentry : ∀ k, Kept func k → entry k = entry' k) {ops : List PcodeInsn} (hops : ∀ op ∈ ops, op ∈ blk.ops)
    {s s' : frame_t VnKey V W} (halike : FramesAlike (Kept func) s s') :
    FramesAlike (Kept func) (exec_ops m Varnode.value_cell entry edge ops s)
      (exec_ops m Varnode.value_cell entry' edge (ops.map (remove doomed)) s') := by
  induction ops generalizing s s' with
  | nil => exact halike
  | cons op ops ih =>
    have hop := hops op List.mem_cons_self
    refine ih (fun o ho => hops o (List.mem_cons_of_mem _ ho)) ?_
    by_cases hdead : doomed op = true
    · have hnop : (to_nop op).op = .nop := rfl
      simp only [remove, if_pos hdead, exec_skip (Or.inr hnop)]
      exact exec_removed (hdoomed blk hblk op hop hdead) halike
    · simp only [remove, if_neg hdead]
      refine exec_alike hentry (fun hnop vn hvn => Or.inl ?_) halike
      exact mem_used_keys.mpr ⟨blk, hblk, op, hop, hnop, vn, hvn, rfl⟩

theorem step_alike {s s' : state_t VnKey V W} (halike : Alike (Kept func) s s') :
    Alike (Kept func) (func.step m Varnode.value_cell s)
      ((func.map_ops (remove doomed)).step m Varnode.value_cell s') := by
  cases halike with
  | returned hagree => exact .returned hagree
  | left hagree => exact .left hagree
  | @entering b came env env' world hagree =>
    rw [PcodeFunc.step, PcodeFunc.step, PcodeFunc.map_ops, List.getElem?_map]
    cases hb : func.blocks[b]? with
    | none => exact .left hagree
    | some blk =>
      have hstart : FramesAlike (Kept func) ({ env := env, world := world } : frame_t VnKey V W)
          { env := env', world := world } := ⟨hagree, rfl, rfl, rfl⟩
      exact leave_alike m b rfl (exec_ops_alike hdoomed (List.mem_of_getElem? hb) hagree (fun _ h => h) hstart)

end

/-- A pass of the elimination keeps what a run does, as far as it can be seen. -/
theorem remove_alike {V W : Type} {m : machine_t V W} {func : PcodeFunc} {doomed : PcodeInsn → Bool}
    (hdoomed : ∀ blk ∈ func.blocks, ∀ op ∈ blk.ops, doomed op = true → Removable func op) (n : Nat)
    (s : state_t VnKey V W) :
    Alike Rax (func.run m Varnode.value_cell n s) ((func.map_ops (remove doomed)).run m Varnode.value_cell n s) :=
  (run_alike (fun _ _ => step_alike hdoomed) n (.refl s)).mono fun _ => Or.inr

theorem passes_alike {V W : Type} {m : machine_t V W} (count : Nat) (func : PcodeFunc) (n : Nat)
    (s : state_t VnKey V W) :
    Alike Rax (func.run m Varnode.value_cell n s) ((passes count func).run m Varnode.value_cell n s) := by
  induction count generalizing func with
  | zero => exact .refl _
  | succ count ih =>
    rw [passes]
    by_cases hchanged : (func.blocks.any fun blk => blk.ops.any (dead (count_uses func))) = true
    · rw [if_pos hchanged]
      exact (remove_alike (fun _ _ _ _ => dead_removable) n s).trans (ih _)
    · rw [if_neg hchanged]
      exact .refl _

/-- Dead code elimination keeps the meaning: block by block the function takes the same way through the same worlds
and returns the same values. -/
theorem run_keeps_meaning {V W : Type} (m : machine_t V W) {func : PcodeFunc} (hbare : StoresBare func) (n : Nat)
    (s : state_t VnKey V W) :
    Alike Rax (func.run m Varnode.value_cell n s) ((run func).run m Varnode.value_cell n s) := by
  rw [run, erase_nops_run]
  refine (remove_alike (fun blk hblk op hop => ?_) n s).trans (passes_alike 6 _ n s)
  exact dead_prologue_removable hbare hblk hop

theorem sign_func_cleaned :
    Alike Rax (sign_func.run sum_machine Varnode.value_cell 3 (.entering 0 none (fun _ => 0) ()))
      ((run sign_func).run sum_machine Varnode.value_cell 3 (.entering 0 none (fun _ => 0) ())) :=
  run_keeps_meaning sum_machine (by unfold StoresBare; decide) 3 _

/-- So do the copies at the end of the propagation. -/
theorem dead_copy_elim_keeps_meaning {V W : Type} (m : machine_t V W) (func : PcodeFunc) (n : Nat)
    (s : state_t VnKey V W) :
    Alike Rax (func.run m Varnode.value_cell n s)
      ((Propagate.dead_copy_elim func).run m Varnode.value_cell n s) := by
  rw [Propagate.dead_copy_elim, erase_nops_run]
  exact passes_alike 12 func n s

end DCE

end hype
