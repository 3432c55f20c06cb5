import Mathlib.Data.List.Basic
import Mathlib.Logic.Function.Basic

namespace hype

inductive PcodeOp
  | copy | load | store
  | add | sub | and | or | xor
  | int_less | int_sless | int_equal | int_nequal
  | bool_and | bool_or | bool_not
  | call | return | branch | cbranch
  | shift_left | shift_right | shift_aright | rotate_left | rotate_right
  | int_mult | int_div | int_sdiv
  | int_zext | int_sext
  | piece | subpiece
  | int_negate | int_not
  | intrinsic | nop
  deriving DecidableEq

inductive VarnodeKind
  | reg | temp | const | ram | stack
  deriving DecidableEq

structure Varnode where
  kind : VarnodeKind := .const
  id : Int := -1
  size : Int := 8
  offset : UInt64 := 0
  name : String := ""
  deriving DecidableEq

def Varnode.valid (vn : Varnode) : Bool := vn.id ≥ 0 ∨ vn.kind = .const
def Varnode.is_reg (vn : Varnode) : Bool := vn.kind = .reg
def Varnode.is_temp (vn : Varnode) : Bool := vn.kind = .temp
def Varnode.is_const (vn : Varnode) : Bool := vn.kind = .const
def Varnode.is_stack (vn : Varnode) : Bool := vn.kind = .stack

/-- The `operator==` of the source, which leaves the name out. -/
def Varnode.eq (a b : Varnode) : Bool :=
  a.kind = b.kind ∧ a.id = b.id ∧ a.size = b.size ∧ a.offset = b.offset

structure PcodeInsn where
  op : PcodeOp := .nop
  output : Varnode := {}
  inputs : List Varnode := []
  addr : UInt64 := 0
  seq : Int := 0
  deriving DecidableEq

/-- Successors and predecessors are indices of blocks; the lifter makes no negative ones. -/
structure PcodeBlock where
  id : Nat := 0
  addr : UInt64 := 0
  ops : List PcodeInsn := []
  succs : List Nat := []
  preds : List Nat := []
  has_return : Bool := false
  deriving DecidableEq

structure PcodeFunc where
  entry : UInt64 := 0
  name : String := ""
  blocks : List PcodeBlock := []
  next_temp : Nat := 0
  next_ssa : Nat := 0
  params : List Varnode := []
  locals : List Varnode := []
  deriving DecidableEq

def vn_reg (id : Int) (name : String) (sz : Int := 8) : Varnode := ⟨.reg, id, sz, 0, name⟩
def vn_temp (id : Int) (sz : Int := 8) : Varnode := ⟨.temp, id, sz, 0, ""⟩
def vn_const (val : UInt64) (sz : Int := 8) : Varnode := ⟨.const, -1, sz, val, ""⟩
def vn_stack (id : Int) (off : UInt64) (sz : Int := 8) : Varnode := ⟨.stack, id, sz, off, ""⟩

/-- A change of every operation in place. -/
def PcodeFunc.map_ops (change : PcodeInsn → PcodeInsn) (func : PcodeFunc) : PcodeFunc :=
  { func with blocks := func.blocks.map fun blk => { blk with ops := blk.ops.map change } }

/-- `std::erase_if` over the operations of every block. -/
def PcodeFunc.erase_nops (func : PcodeFunc) : PcodeFunc :=
  { func with blocks := func.blocks.map fun blk => { blk with ops := blk.ops.filter fun op => op.op ≠ .nop } }

/-- The identity of a value: varnodes of other widths are other values. -/
structure VnKey where
  kind : VarnodeKind
  id : Int
  offset : UInt64
  size : Int
  deriving DecidableEq

def Varnode.key (vn : Varnode) : VnKey := ⟨vn.kind, vn.id, vn.offset, vn.size⟩

abbrev UseCountMap := VnKey → Nat

def PcodeFunc.used_keys (func : PcodeFunc) : List VnKey :=
  func.blocks.flatMap fun blk =>
    (blk.ops.filter fun op => op.op ≠ .nop).flatMap fun op => op.inputs.map Varnode.key

def count_uses (func : PcodeFunc) : UseCountMap := fun k => func.used_keys.count k

def has_use (uses : UseCountMap) (vn : Varnode) : Bool := 0 < uses vn.key

theorem has_use_iff {func : PcodeFunc} {vn : Varnode} :
    has_use (count_uses func) vn = true ↔ vn.key ∈ func.used_keys := by
  rw [has_use, decide_eq_true_iff]
  exact List.count_pos_iff

theorem mem_used_keys {func : PcodeFunc} {k : VnKey} :
    k ∈ func.used_keys ↔
      ∃ blk ∈ func.blocks, ∃ op ∈ blk.ops, op.op ≠ .nop ∧ ∃ vn ∈ op.inputs, vn.key = k := by
  rw [PcodeFunc.used_keys, List.mem_flatMap]
  refine exists_congr fun blk => and_congr_right fun _ => ?_
  rw [List.mem_flatMap]
  refine exists_congr fun op => ?_
  rw [List.mem_filter, List.mem_map, decide_eq_true_iff, and_assoc]

section Meaning

/-- An operand as an operation sees it. -/
structure operand_t (V : Type) where
  size : Int
  name : String
  value : V

/-- What the operations do, which the passes take as it is. Which successor of a block comes next is told by the
branches at its end. -/
structure machine_t (V W : Type) where
  const : UInt64 → V
  compute : PcodeOp → Int → List (operand_t V) → W → V
  act : PcodeOp → List (operand_t V) → W → W
  pick : List (PcodeOp × List (operand_t V)) → W → Nat

/-- The operations that change the world. -/
def PcodeOp.acts (op : PcodeOp) : Bool := op = .store ∨ op = .call ∨ op = .intrinsic

/-- The operations that have no result. -/
def PcodeOp.void (op : PcodeOp) : Bool := op = .nop ∨ op = .store ∨ op = .branch ∨ op = .cbranch ∨ op = .return

def PcodeOp.jumps (op : PcodeOp) : Bool := op = .branch ∨ op = .cbranch

/-- A block under way. -/
structure frame_t (K V W : Type) where
  env : K → V
  world : W
  branches : List (PcodeOp × List (operand_t V)) := []
  returned : Option (List V) := none

/-- A function between two blocks, or behind its end. -/
inductive state_t (K V W : Type) where
  | entering (block : Nat) (came : Option Nat) (env : K → V) (world : W)
  | returned (values : List V) (env : K → V) (world : W)
  | left (env : K → V) (world : W)

/-- Values are kept under their full identity. -/
def Varnode.value_cell (vn : Varnode) : Option VnKey := if vn.is_const then none else some vn.key

section

variable {K V W : Type} [DecidableEq K] (m : machine_t V W) (cell : Varnode → Option K)

/-- A constant is its own value; the others are read from the cells that they name. -/
def read (env : K → V) (vn : Varnode) : V :=
  match cell vn with
  | none => m.const vn.offset
  | some k => env k

def write (env : K → V) (vn : Varnode) (v : V) : K → V :=
  match cell vn with
  | none => env
  | some k => Function.update env k v

def operand (env : K → V) (vn : Varnode) : operand_t V := ⟨vn.size, vn.name, read m cell env vn⟩

/-- One operation. A phi reads what its input for the edge taken held on entry. -/
def PcodeInsn.exec (entry : K → V) (edge : Option Nat) (op : PcodeInsn) (s : frame_t K V W) : frame_t K V W :=
  if s.returned.isSome ∨ op.op = .nop then s
  else if op.seq = -1 then
    match edge.bind fun i => op.inputs[i]? with
    | none => s
    | some vn => { s with env := write cell s.env op.output (read m cell entry vn) }
  else
    let args := op.inputs.map (operand m cell s.env)
    if op.op = .return then { s with returned := some (op.inputs.map (read m cell s.env)) }
    else if op.op.jumps then { s with branches := s.branches ++ [(op.op, args)] }
    else
      { s with
        env := if op.op.void then s.env else write cell s.env op.output (m.compute op.op op.output.size args s.world)
        world := if op.op.acts then m.act op.op args s.world else s.world }

def exec_ops (entry : K → V) (edge : Option Nat) (ops : List PcodeInsn) (s : frame_t K V W) : frame_t K V W :=
  ops.foldl (fun s op => op.exec m cell entry edge s) s

/-- The index of the edge that a block was entered by: the first one from its source. -/
def PcodeBlock.edge (blk : PcodeBlock) (came : Option Nat) : Option Nat := came.bind fun p => blk.preds.idxOf? p

/-- Where a block leads to. -/
def PcodeBlock.leave (blk : PcodeBlock) (b : Nat) (s : frame_t K V W) : state_t K V W :=
  match s.returned with
  | some values => .returned values s.env s.world
  | none =>
    match blk.succs[m.pick s.branches s.world]? with
    | some next => .entering next (some b) s.env s.world
    | none => .left s.env s.world

def PcodeBlock.exec (blk : PcodeBlock) (b : Nat) (came : Option Nat) (env : K → V) (world : W) : state_t K V W :=
  blk.leave m b (exec_ops m cell env (blk.edge came) blk.ops { env := env, world := world })

def PcodeFunc.step (func : PcodeFunc) : state_t K V W → state_t K V W
  | .entering b came env world =>
    match func.blocks[b]? with
    | some blk => blk.exec m cell b came env world
    | none => .left env world
  | s => s

def PcodeFunc.run (func : PcodeFunc) : Nat → state_t K V W → state_t K V W
  | 0, s => s
  | n + 1, s => PcodeFunc.run func n (func.step m cell s)

variable {m cell}

omit [DecidableEq K] in
theorem read_const {env : K → V} {vn : Varnode} (hcell : cell vn = none) : read m cell env vn = m.const vn.offset := by
  rw [read, hcell]

omit [DecidableEq K] in
theorem read_cell {env : K → V} {vn : Varnode} {k : K} (hcell : cell vn = some k) : read m cell env vn = env k := by
  rw [read, hcell]

theorem write_const {env : K → V} {vn : Varnode} {v : V} (hcell : cell vn = none) : write cell env vn v = env := by
  rw [write, hcell]

theorem write_cell {env : K → V} {vn : Varnode} {v : V} {k : K} (hcell : cell vn = some k) :
    write cell env vn v = Function.update env k v := by
  rw [write, hcell]

theorem read_write_same {env : K → V} {vn out : Varnode} {v : V} {k : K} (hout : cell out = some k)
    (hvn : cell vn = some k) : read m cell (write cell env out v) vn = v := by
  rw [read_cell hvn, write_cell hout, Function.update_self]

theorem read_write_other {env : K → V} {vn out : Varnode} {v : V} (hne : ∀ k, cell out = some k → cell vn ≠ some k) :
    read m cell (write cell env out v) vn = read m cell env vn := by
  cases hout : cell out with
  | none => rw [write_const hout]
  | some k =>
    rw [write_cell hout, read, read]
    cases hvn : cell vn with
    | none => rfl
    | some k' =>
      have hdiffer : k' ≠ k := fun heq => hne k hout (heq ▸ hvn)
      exact Function.update_of_ne hdiffer _ _

section

variable {entry : K → V} {edge : Option Nat} {op : PcodeInsn} {s : frame_t K V W}

theorem exec_skip (hskip : s.returned.isSome = true ∨ op.op = .nop) : op.exec m cell entry edge s = s := if_pos hskip

theorem exec_phi (hskip : ¬ (s.returned.isSome = true ∨ op.op = .nop)) (hphi : op.seq = -1) :
    op.exec m cell entry edge s =
      match edge.bind fun i => op.inputs[i]? with
      | none => s
      | some vn => { s with env := write cell s.env op.output (read m cell entry vn) } := by
  rw [PcodeInsn.exec, if_neg hskip, if_pos hphi]

theorem exec_return (hskip : ¬ (s.returned.isSome = true ∨ op.op = .nop)) (hphi : op.seq ≠ -1)
    (hreturn : op.op = .return) :
    op.exec m cell entry edge s = { s with returned := some (op.inputs.map (read m cell s.env)) } := by
  rw [PcodeInsn.exec, if_neg hskip, if_neg hphi]
  exact if_pos hreturn

theorem exec_jump (hskip : ¬ (s.returned.isSome = true ∨ op.op = .nop)) (hphi : op.seq ≠ -1)
    (hjumps : op.op.jumps = true) :
    op.exec m cell entry edge s =
      { s with branches := s.branches ++ [(op.op, op.inputs.map (operand m cell s.env))] } := by
  have hreturn : op.op ≠ .return := by
    intro hreturn
    rw [hreturn] at hjumps
    exact absurd hjumps (by decide)
  rw [PcodeInsn.exec, if_neg hskip, if_neg hphi]
  exact (if_neg hreturn).trans (if_pos hjumps)

theorem exec_compute (hskip : ¬ (s.returned.isSome = true ∨ op.op = .nop)) (hphi : op.seq ≠ -1)
    (hreturn : op.op ≠ .return) (hjumps : op.op.jumps ≠ true) :
    op.exec m cell entry edge s =
      { s with
        env := if op.op.void then s.env else
          write cell s.env op.output
            (m.compute op.op op.output.size (op.inputs.map (operand m cell s.env)) s.world)
        world := if op.op.acts then m.act op.op (op.inputs.map (operand m cell s.env)) s.world else s.world } := by
  rw [PcodeInsn.exec, if_neg hskip, if_neg hphi]
  exact (if_neg hreturn).trans (if_neg hjumps)

end

/-- Without its NOPs a block does the same. -/
theorem exec_filter {entry : K → V} {edge : Option Nat} (ops : List PcodeInsn) (s : frame_t K V W) :
    exec_ops m cell entry edge (ops.filter fun op => op.op ≠ .nop) s = exec_ops m cell entry edge ops s := by
  induction ops generalizing s with
  | nil => rfl
  | cons op ops ih =>
    by_cases hnop : op.op = .nop
    · rw [List.filter_cons_of_neg (by simpa using hnop), ih]
      show _ = exec_ops m cell entry edge ops (op.exec m cell entry edge s)
      rw [exec_skip (Or.inr hnop)]
    · rw [List.filter_cons_of_pos (by simpa using hnop)]
      exact ih _

/-- To erase the NOPs of a function changes no run. -/
theorem erase_nops_step (func : PcodeFunc) (s : state_t K V W) : func.erase_nops.step m cell s = func.step m cell s := by
  cases s with
  | returned => rfl
  | left => rfl
  | entering b came env world =>
    rw [PcodeFunc.step, PcodeFunc.step, PcodeFunc.erase_nops, List.getElem?_map]
    cases func.blocks[b]? with
    | none => rfl
    | some blk =>
      show PcodeBlock.leave m _ b (exec_ops m cell env _ (blk.ops.filter fun op => op.op ≠ .nop) _) = _
      rw [exec_filter]
      rfl

theorem erase_nops_run (func : PcodeFunc) (n : Nat) (s : state_t K V W) :
    func.erase_nops.run m cell n s = func.run m cell n s := by
  induction n generalizing s with
  | zero => rfl
  | succ n ih =>
    rw [PcodeFunc.run, PcodeFunc.run, erase_nops_step]
    exact ih _

end

section

variable {K V W : Type}

/-- Two runs at the same place, in the same world, that agree on some cells. -/
inductive Alike (keep : K → Prop) : state_t K V W → state_t K V W → Prop where
  | entering {b : Nat} {came : Option Nat} {env env' : K → V} {world : W} (hagree : ∀ k, keep k → env k = env' k) :
      Alike keep (.entering b came env world) (.entering b came env' world)
  | returned {values : List V} {env env' : K → V} {world : W} (hagree : ∀ k, keep k → env k = env' k) :
      Alike keep (.returned values env world) (.returned values env' world)
  | left {env env' : K → V} {world : W} (hagree : ∀ k, keep k → env k = env' k) :
      Alike keep (.left env world) (.left env' world)

variable {keep keep' : K → Prop}

theorem Alike.refl (s : state_t K V W) : Alike keep s s := by
  cases s with
  | entering => exact .entering fun _ _ => rfl
  | returned => exact .returned fun _ _ => rfl
  | left => exact .left fun _ _ => rfl

theorem Alike.mono {s s' : state_t K V W} (halike : Alike keep s s') (hsub : ∀ k, keep' k → keep k) :
    Alike keep' s s' := by
  cases halike with
  | entering hagree => exact .entering fun k hk => hagree k (hsub k hk)
  | returned hagree => exact .returned fun k hk => hagree k (hsub k hk)
  | left hagree => exact .left fun k hk => hagree k (hsub k hk)

theorem Alike.trans {s s' s'' : state_t K V W} (h : Alike keep s s') (h' : Alike keep s' s'') : Alike keep s s'' := by
  cases h with
  | entering hagree =>
    cases h' with
    | entering hagree' => exact .entering fun k hk => (hagree k hk).trans (hagree' k hk)
  | returned hagree =>
    cases h' with
    | returned hagree' => exact .returned fun k hk => (hagree k hk).trans (hagree' k hk)
  | left hagree =>
    cases h' with
    | left hagree' => exact .left fun k hk => (hagree k hk).trans (hagree' k hk)

/-- Two blocks under way that agree on some cells. -/
structure FramesAlike (keep : K → Prop) (s s' : frame_t K V W) : Prop where
  env : ∀ k, keep k → s.env k = s'.env k
  world : s.world = s'.world
  branches : s.branches = s'.branches
  returned : s.returned = s'.returned

theorem leave_alike (m : machine_t V W) {blk blk' : PcodeBlock} (b : Nat) {s s' : frame_t K V W}
    (hsuccs : blk.succs = blk'.succs) (halike : FramesAlike keep s s') :
    Alike keep (blk.leave m b s) (blk'.leave m b s') := by
  rw [PcodeBlock.leave, PcodeBlock.leave, ← hsuccs, ← halike.returned, ← halike.branches, ← halike.world]
  cases s.returned with
  | some values => exact .returned halike.env
  | none =>
    simp only
    cases blk.succs[m.pick s.branches s.world]? with
    | some next => exact .entering halike.env
    | none => exact .left halike.env

end

/-- What every step keeps, a run keeps. -/
theorem run_alike {K V W : Type} [DecidableEq K] {m : machine_t V W} {cell : Varnode → Option K} {keep : K → Prop}
    {func func' : PcodeFunc}
    (hstep : ∀ s s' : state_t K V W, Alike keep s s' → Alike keep (func.step m cell s) (func'.step m cell s'))
    (n : Nat) {s s' : state_t K V W} (halike : Alike keep s s') :
    Alike keep (func.run m cell n s) (func'.run m cell n s') := by
  induction n generalizing s s' with
  | zero => exact halike
  | succ n ih => exact ih (hstep s s' halike)

end Meaning

/-- `rax = rcx < 0 ? 1 : 2`, with a flag that nothing reads. -/
def sign_func : PcodeFunc where
  entry := 0x1000
  blocks := [
    { id := 0, addr := 0x1000, succs := [1, 2],
      ops := [
        { op := .int_sless, output := vn_temp 256 1, inputs := [vn_reg 1 "rcx", vn_const 0] },
        { op := .int_less, output := vn_reg 101 "CF" 1, inputs := [vn_reg 1 "rcx", vn_const 0], seq := 1 },
        { op := .cbranch, inputs := [vn_const 0x1020, vn_temp 256 1], seq := 2 }] },
    { id := 1, addr := 0x1010, succs := [3], preds := [0],
      ops := [{ op := .copy, output := vn_reg 0 "rax", inputs := [vn_const 2] },
        { op := .branch, inputs := [vn_const 0x1030] }] },
    { id := 2, addr := 0x1020, succs := [3], preds := [0],
      ops := [{ op := .copy, output := vn_reg 0 "rax", inputs := [vn_const 1] }] },
    { id := 3, addr := 0x1030, preds := [1, 2], has_return := true,
      ops := [{ op := .return, inputs := [vn_reg 0 "rax"] }] }]

/-- A machine that adds operands up and follows a branch if its condition is not 0. -/
def sum_machine : machine_t UInt64 Unit where
  const v := v
  compute _ _ args _ := args.foldl (fun total arg => total + arg.value) 0
  act _ _ world := world
  pick branches _ := if branches.any fun b => b.2.any fun arg => arg.size = 1 ∧ arg.value ≠ 0 then 1 else 0

end hype
