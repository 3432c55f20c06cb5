import Mathlib.Data.UInt
import ReverseSlop.Library.Keyed
import ReverseSlop.Library.Lists

namespace hype

inductive InsnType where
  | unknown | nop | mov | push | pop
  | call | ret | jmp | jcc
  | cmp | test | setcc
  | add | sub | mul | div | imul | idiv
  | inc | dec
  | and | or | xor | not | shl | shr | sar | rol | ror
  | lea | int | syscall | movsx | movzx | other
  deriving DecidableEq

inductive OpType where
  | none | reg | imm | mem
  deriving DecidableEq

structure Operand where
  val : UInt64 := 0
  reg : UInt16 := 0
  type : OpType := .none

/-- An instruction with the operands that it has. -/
structure Insn where
  addr : UInt64
  ops : List Operand := []
  len : UInt8
  type : InsnType

def Insn.is_ret (insn : Insn) : Bool := insn.type = .ret

def Insn.is_cond_jmp (insn : Insn) : Bool := insn.type = .jcc

def Insn.branch_target (insn : Insn) : UInt64 :=
  match insn.ops.head? with
  | some op => if op.type = .imm then op.val else 0
  | none => 0

/-- Where the next instruction is. -/
def Insn.next (insn : Insn) : UInt64 := insn.addr + insn.len.toUInt64

structure BasicBlock where
  start : UInt64
  «end» : UInt64
  insns : List Insn := []
  succs : List UInt64 := []
  preds : List UInt64 := []

structure LoopInfo where
  header : UInt64
  back_edge_src : UInt64
  induction_reg : UInt16 := 0
  deriving DecidableEq

structure Function where
  entry : UInt64
  block_addrs : List UInt64 := []
  blocks : Keyed.Map BasicBlock.start := {}
  analyzed : Bool := false
  loops : List LoopInfo := []
  ranges : List (UInt64 × UInt64) := []

/-- What the graphs of the functions are made from. -/
structure Analyzer where
  insns : Keyed.Map Insn.addr := {}
  funcs : UInt64 → Bool := fun _ => false
  recovered_edges : UInt64 → List UInt64 := fun _ => []

/-- The targets of a branch, without those that are not known. -/
def Insn.targets (insn : Insn) : List UInt64 := if insn.branch_target ≠ 0 then [insn.branch_target] else []

namespace Analyzer

def in_range (ranges : List (UInt64 × UInt64)) (cur : UInt64) : Bool :=
  ranges.isEmpty || ranges.any fun r => r.1 ≤ cur ∧ cur < r.2

/-- The loop that fills a block; each of its successors goes into the worklist, too. -/
def scan (a : Analyzer) (entry : UInt64) (ranges : List (UInt64 × UInt64)) :
    Nat → UInt64 → BasicBlock → Option BasicBlock
  | 0, _, _ => none
  | fuel + 1, cur, bb =>
    match a.insns.find cur with
    | none => some { bb with «end» := cur }
    | some insn =>
      if in_range ranges cur = false then some { bb with «end» := cur }
      else
        let bb := { bb with insns := bb.insns ++ [insn] }
        let cur := cur + insn.len.toUInt64
        if insn.is_ret then some { bb with «end» := cur }
        else if insn.type = .jmp then
          some { bb with «end» := cur, succs := bb.succs ++ insn.targets ++ a.recovered_edges insn.addr }
        else if insn.is_cond_jmp then some { bb with «end» := cur, succs := bb.succs ++ insn.targets ++ [cur] }
        else if cur ≠ entry ∧ a.funcs cur then some { bb with «end» := cur }
        else scan a entry ranges fuel cur bb

def scan_block (a : Analyzer) (func : Function) (bb_start : UInt64) : Option BasicBlock :=
  scan a func.entry func.ranges (a.insns.list.length + 1) bb_start { start := bb_start, «end» := bb_start }

/-- The worklist of `build_one_cfg`. -/
def discover (a : Analyzer) : Nat → List UInt64 → List UInt64 → Function → Option Function
  | 0, _, _, _ => none
  | _ + 1, [], _, func => some func
  | fuel + 1, bb_start :: wl, visited, func =>
    if bb_start ∈ visited then discover a fuel wl visited func
    else
      (scan_block a func bb_start).bind fun bb =>
        discover a fuel (wl ++ bb.succs) (bb_start :: visited)
          (if bb.insns = [] then func
          else { func with block_addrs := func.block_addrs ++ [bb.start], blocks := func.blocks.set bb })

def sort_succs (bb : BasicBlock) : BasicBlock :=
  { bb with succs := (bb.succs.mergeSort fun s t => s ≤ t).unique, preds := [] }

/-- `func.blocks[s].preds.push_back(ba)`, where there is such a block. -/
def push_pred (blocks : Keyed.Map BasicBlock.start) (s ba : UInt64) : Keyed.Map BasicBlock.start :=
  blocks.update (fun bb => { bb with preds := if bb.start = s then bb.preds ++ [ba] else bb.preds }) fun _ => rfl

/-- The predecessors, from the blocks in the order that the map has them. -/
def link (walked : List BasicBlock) (blocks : Keyed.Map BasicBlock.start) : Keyed.Map BasicBlock.start :=
  walked.foldl (fun blocks block => block.succs.foldl (fun blocks s => push_pred blocks s block.start) blocks) blocks

def build_one_cfg (a : Analyzer) (walk : List BasicBlock → List BasicBlock) (fuel : Nat) (func : Function) :
    Option Function :=
  (discover a fuel [func.entry] [] func).map fun func =>
    let blocks := func.blocks.update sort_succs fun _ => rfl
    { func with blocks := link (walk blocks.list) blocks, analyzed := true }

/-- Every instruction ends behind the place where it begins. -/
def Forward (a : Analyzer) : Prop := ∀ insn ∈ a.insns.list, insn.addr < insn.next

/-- Where control may go behind a block's last instruction. -/
def exits (a : Analyzer) (insn : Insn) : List UInt64 :=
  if insn.type = .jmp then insn.targets ++ a.recovered_edges insn.addr
  else if insn.is_cond_jmp then insn.targets ++ [insn.next]
  else []

/-- There is no instruction at the address, or it is not one of the function's. -/
def Outside (a : Analyzer) (ranges : List (UInt64 × UInt64)) (cur : UInt64) : Prop :=
  a.insns.find cur = none ∨ in_range ranges cur = false

/-- A line of instructions ends behind a `ret`, behind a jump, and where another function begins. -/
def EndsLine (a : Analyzer) (entry : UInt64) (insn : Insn) : Prop :=
  insn.is_ret = true ∨ insn.type = .jmp ∨ insn.is_cond_jmp = true ∨ (insn.next ≠ entry ∧ a.funcs insn.next = true)

/-- The line of instructions from an address on, as far as control takes it: up to one that ends
it, or to the last one before an address with no instruction of the function. -/
inductive Straight (a : Analyzer) (entry : UInt64) (ranges : List (UInt64 × UInt64)) :
    UInt64 → List Insn → UInt64 → Prop where
  | last {cur : UInt64} {insn : Insn} (hfind : a.insns.find cur = some insn) (hrange : in_range ranges cur = true)
    (hends : EndsLine a entry insn) : Straight a entry ranges cur [insn] insn.next
  | out {cur : UInt64} {insn : Insn} (hfind : a.insns.find cur = some insn) (hrange : in_range ranges cur = true)
    (hends : ¬ EndsLine a entry insn) (hout : Outside a ranges insn.next) : Straight a entry ranges cur [insn] insn.next
  | next {cur stop : UInt64} {insn : Insn} {rest : List Insn} (hfind : a.insns.find cur = some insn)
    (hrange : in_range ranges cur = true) (hends : ¬ EndsLine a entry insn)
    (hrest : Straight a entry ranges insn.next rest stop) : Straight a entry ranges cur (insn :: rest) stop

/-- Control may go from one address to the other: the line from the one on leaves it there. -/
def Flows (a : Analyzer) (func : Function) (x y : UInt64) : Prop :=
  ∃ insns stop insn, Straight a func.entry func.ranges x insns stop ∧ insns.getLast? = some insn ∧ y ∈ exits a insn

section Scan

variable {a : Analyzer} {entry : UInt64} {ranges : List (UInt64 × UInt64)}

private theorem exits_of_ret {insn : Insn} (hret : insn.is_ret = true) : exits a insn = [] := by
  have htype : insn.type = .ret := of_decide_eq_true hret
  rw [exits, Insn.is_cond_jmp, htype]
  rfl

/-- A line begins with an instruction of the function. -/
theorem Straight.start {cur stop : UInt64} {insns : List Insn} (h : Straight a entry ranges cur insns stop) :
    insns ≠ [] ∧ (a.insns.find cur).isSome = true ∧ in_range ranges cur = true := by
  cases h with
  | last hfind hrange => exact ⟨List.cons_ne_nil _ _, by rw [hfind]; rfl, hrange⟩
  | out hfind hrange => exact ⟨List.cons_ne_nil _ _, by rw [hfind]; rfl, hrange⟩
  | next hfind hrange => exact ⟨List.cons_ne_nil _ _, by rw [hfind]; rfl, hrange⟩

private theorem Straight.not_outside {cur stop : UInt64} {insns : List Insn} (h : Straight a entry ranges cur insns stop) :
    ¬ Outside a ranges cur := by
  obtain ⟨-, hfind, hrange⟩ := h.start
  rintro (hnone | hout)
  · rw [hnone] at hfind
    cases hfind
  · rw [hout] at hrange
    cases hrange

/-- There is one line from an address on. -/
theorem Straight.unique {cur stop stop' : UInt64} {insns insns' : List Insn} (h : Straight a entry ranges cur insns stop)
    (h' : Straight a entry ranges cur insns' stop') : insns = insns' := by
  induction h generalizing insns' with
  | last hfind _ hends =>
    cases h' with
    | last hfind' => rw [Option.some.inj (hfind.symm.trans hfind')]
    | out hfind' => rw [Option.some.inj (hfind.symm.trans hfind')]
    | next hfind' _ hends' =>
      obtain rfl := Option.some.inj (hfind.symm.trans hfind')
      exact absurd hends hends'
  | out hfind _ hends hout =>
    cases h' with
    | last hfind' => rw [Option.some.inj (hfind.symm.trans hfind')]
    | out hfind' => rw [Option.some.inj (hfind.symm.trans hfind')]
    | next hfind' _ _ hrest' =>
      obtain rfl := Option.some.inj (hfind.symm.trans hfind')
      exact absurd hout hrest'.not_outside
  | next hfind _ hends hrest ih =>
    cases h' with
    | last hfind' _ hends' =>
      obtain rfl := Option.some.inj (hfind.symm.trans hfind')
      exact absurd hends' hends
    | out hfind' _ _ hout' =>
      obtain rfl := Option.some.inj (hfind.symm.trans hfind')
      exact absurd hout' hrest.not_outside
    | next hfind' _ _ hrest' =>
      obtain rfl := Option.some.inj (hfind.symm.trans hfind')
      rw [ih hrest']

/-- What the loop that fills a block finds: nothing, or the line from the address on. -/
def Scanned (a : Analyzer) (entry : UInt64) (ranges : List (UInt64 × UInt64)) (cur : UInt64) (insns : List Insn)
    (stop : UInt64) : Prop :=
  (insns = [] ∧ stop = cur ∧ Outside a ranges cur) ∨ Straight a entry ranges cur insns stop

private theorem scan_spec (hforward : Forward a) {fuel : Nat} {cur : UInt64} (bb : BasicBlock)
    (hfuel : a.insns.list.total (fun insn => if cur ≤ insn.addr then 1 else 0) < fuel) :
    ∃ insns stop, Scanned a entry ranges cur insns stop ∧
      scan a entry ranges fuel cur bb =
        some { bb with
          «end» := stop, insns := bb.insns ++ insns, succs := bb.succs ++ (insns.getLast?.map (exits a)).getD [] } := by
  induction fuel generalizing cur bb with
  | zero => exact absurd hfuel (Nat.not_lt_zero _)
  | succ fuel ih =>
    rw [scan]
    cases hfind : a.insns.find cur with
    | none => exact ⟨[], cur, Or.inl ⟨rfl, rfl, Or.inl hfind⟩, by simp⟩
    | some insn =>
      obtain ⟨hmem, haddr⟩ := Keyed.Map.find_eq_some.mp hfind
      cases hrange : in_range ranges cur with
      | false => exact ⟨[], cur, Or.inl ⟨rfl, rfl, Or.inr hrange⟩, by simp⟩
      | true =>
        have hnext : cur + insn.len.toUInt64 = insn.next := by rw [Insn.next, haddr]
        have hlast : EndsLine a entry insn → Scanned a entry ranges cur [insn] insn.next :=
          fun hends => Or.inr (Straight.last hfind hrange hends)
        simp only [Bool.true_eq_false, if_false, hnext]
        by_cases hret : insn.is_ret = true
        · refine ⟨[insn], insn.next, hlast (Or.inl hret), ?_⟩
          simp [hret, exits_of_ret]
        rw [if_neg hret]
        by_cases hjmp : insn.type = .jmp
        · refine ⟨[insn], insn.next, hlast (Or.inr (Or.inl hjmp)), ?_⟩
          simp [hjmp, exits]
        rw [if_neg hjmp]
        by_cases hjcc : insn.is_cond_jmp = true
        · refine ⟨[insn], insn.next, hlast (Or.inr (Or.inr (Or.inl hjcc))), ?_⟩
          simp [hjcc, hjmp, exits]
        rw [if_neg hjcc]
        have hexits : exits a insn = [] := by rw [exits, if_neg hjmp, if_neg hjcc]
        by_cases hfunc : insn.next ≠ entry ∧ a.funcs insn.next = true
        · refine ⟨[insn], insn.next, hlast (Or.inr (Or.inr (Or.inr hfunc))), ?_⟩
          simp [hfunc, hexits]
        rw [if_neg hfunc]
        have hends : ¬ EndsLine a entry insn := by
          rw [EndsLine]
          tauto
        -- The instructions from here on are fewer.
        have hfewer : a.insns.list.total (fun insn' => if insn.next ≤ insn'.addr then 1 else 0) <
            a.insns.list.total fun insn' => if cur ≤ insn'.addr then 1 else 0 := by
          have hlt : cur < insn.next := haddr ▸ hforward insn hmem
          apply List.total_lt
          · intro other _
            by_cases hother : insn.next ≤ other.addr
            · rw [if_pos hother, if_pos (Std.le_trans (Std.le_of_lt hlt) hother)]
            · rw [if_neg hother]
              exact Nat.zero_le _
          · refine ⟨insn, hmem, ?_⟩
            rw [haddr, if_neg (Std.not_le.mpr hlt), if_pos (Std.le_refl cur)]
            exact Nat.zero_lt_one
        obtain ⟨rest, stop, hrest, hscan⟩ :=
          ih { bb with insns := bb.insns ++ [insn] } (Nat.lt_of_lt_of_le hfewer (Nat.le_of_lt_succ hfuel))
        obtain ⟨rfl, rfl, hout⟩ | hrest := hrest
        · refine ⟨[insn], insn.next, Or.inr (.out hfind hrange hends hout), ?_⟩
          rw [hscan]
          simp [hexits]
        · refine ⟨insn :: rest, stop, Or.inr (.next hfind hrange hends hrest), ?_⟩
          rw [hscan]
          obtain ⟨second, rest, rfl⟩ := List.exists_cons_of_ne_nil hrest.start.1
          simp [List.getLast?_cons_cons]

private theorem scan_block_spec (hforward : Forward a) (func : Function) (bb_start : UInt64) :
    ∃ bb, scan_block a func bb_start = some bb ∧ bb.start = bb_start ∧
      Scanned a func.entry func.ranges bb_start bb.insns bb.end ∧ bb.succs = (bb.insns.getLast?.map (exits a)).getD [] := by
  have hfuel : a.insns.list.total (fun insn => if bb_start ≤ insn.addr then 1 else 0) < a.insns.list.length + 1 := by
    have hle : ∀ insn ∈ a.insns.list, (if bb_start ≤ insn.addr then 1 else 0) ≤ 1 := by
      intro insn _
      split <;> decide
    have htotal := List.total_le hle
    omega
  obtain ⟨insns, stop, hscanned, hscan⟩ := scan_spec hforward { start := bb_start, «end» := bb_start } hfuel
  exact ⟨_, hscan, rfl, hscanned, rfl⟩

private theorem Scanned.nonempty_iff {cur stop : UInt64} {insns : List Insn} (h : Scanned a entry ranges cur insns stop) :
    insns ≠ [] ↔ (a.insns.find cur).isSome = true ∧ in_range ranges cur = true := by
  obtain ⟨rfl, -, hout⟩ | hstraight := h
  · refine iff_of_false (fun h => h rfl) fun h => ?_
    obtain hnone | hrange := hout
    · rw [hnone] at h
      cases h.1
    · rw [hrange] at h
      cases h.2
  · exact iff_of_true hstraight.start.1 hstraight.start.2

end Scan

/-- The block from one address on has the other one among its successors. -/
def Leads (a : Analyzer) (func : Function) (x y : UInt64) : Prop := ∃ bb, scan_block a func x = some bb ∧ y ∈ bb.succs

/-- The blocks lead where control goes. -/
theorem leads_eq {a : Analyzer} (hforward : Forward a) (func : Function) : Leads a func = Flows a func := by
  funext x y
  obtain ⟨bb, hscan, -, hscanned, hsuccs⟩ := scan_block_spec hforward func x
  refine propext ⟨?_, ?_⟩
  · rintro ⟨bb', hscan', hy⟩
    obtain rfl := Option.some.inj (hscan.symm.trans hscan')
    rw [hsuccs] at hy
    cases hlast : bb.insns.getLast? with
    | none =>
      rw [hlast] at hy
      cases hy
    | some insn =>
      rw [hlast] at hy
      obtain ⟨hempty, -⟩ | hstraight := hscanned
      · rw [hempty] at hlast
        cases hlast
      · exact ⟨bb.insns, bb.end, insn, hstraight, hlast, hy⟩
  · rintro ⟨insns, stop, insn, hstraight, hlast, hy⟩
    refine ⟨bb, hscan, ?_⟩
    obtain ⟨-, -, hout⟩ | hstraight' := hscanned
    · exact absurd hout hstraight.not_outside
    · rw [hsuccs, hstraight'.unique hstraight, hlast]
      exact hy

/-- A worklist under way: what has been taken from it, and the blocks so far. -/
structure Discovered (a : Analyzer) (func : Function) (wl visited : List UInt64) (func' : Function) : Prop where
  entry : func'.entry = func.entry
  ranges : func'.ranges = func.ranges
  seed : func.entry ∈ visited ∨ func.entry ∈ wl
  reached : ∀ x, x ∈ visited ∨ x ∈ wl → Relation.ReflTransGen (Leads a func) func.entry x
  closed : ∀ x ∈ visited, ∀ y, Leads a func x y → y ∈ visited ∨ y ∈ wl
  blocks : ∀ bb, bb ∈ func'.blocks.list ↔
    bb.start ∈ visited ∧ scan_block a func bb.start = some bb ∧ bb.insns ≠ []
  addrs : func'.block_addrs = func'.blocks.list.map BasicBlock.start

/-- The successors of the block at an address. -/
def outs (a : Analyzer) (func : Function) (x : UInt64) : Nat :=
  ((scan_block a func x).map fun bb => bb.succs.length).getD 0

/-- The steps that a worklist has yet to make. -/
def work (a : Analyzer) (func : Function) (wl visited : List UInt64) : Nat :=
  wl.length + a.insns.list.total fun insn => if insn.addr ∈ visited then 0 else outs a func insn.addr

section Discover

variable {a : Analyzer} {func func' : Function} {wl visited : List UInt64} {x : UInt64}

private theorem Discovered.drop (h : Discovered a func (x :: wl) visited func') (hx : x ∈ visited) :
    Discovered a func wl visited func' := by
  have hmem : ∀ y, y ∈ visited ∨ y ∈ x :: wl ↔ y ∈ visited ∨ y ∈ wl := by
    intro y
    rw [List.mem_cons]
    constructor
    · intro hy
      obtain hy | rfl | hy := hy
      · exact Or.inl hy
      · exact Or.inl hx
      · exact Or.inr hy
    · intro hy
      exact hy.imp_right Or.inr
  refine ⟨h.entry, h.ranges, (hmem _).mp h.seed, ?_, ?_, h.blocks, h.addrs⟩
  · intro y hy
    exact h.reached y ((hmem y).mpr hy)
  · intro z hz y hflows
    exact (hmem y).mp (h.closed z hz y hflows)

/-- A block that is to be made has not been made. -/
theorem Discovered.fresh (h : Discovered a func wl visited func') (hx : x ∉ visited) {other : BasicBlock}
    (hother : other ∈ func'.blocks.list) : other.start ≠ x := by
  intro heq
  exact hx (heq ▸ ((h.blocks other).mp hother).1)

private theorem Discovered.made_iff (h : Discovered a func wl visited func') {bb : BasicBlock}
    (hscan : scan_block a func x = some bb) (hstart : bb.start = x) (other : BasicBlock) :
    other.start ∈ x :: visited ∧ scan_block a func other.start = some other ∧ other.insns ≠ [] ↔
      (other = bb ∧ bb.insns ≠ []) ∨ other ∈ func'.blocks.list := by
  rw [h.blocks other, List.mem_cons]
  constructor
  · intro hother
    obtain ⟨heq | hmem, hscan', hne⟩ := hother
    · rw [heq, hscan, Option.some.injEq] at hscan'
      exact Or.inl ⟨hscan'.symm, hscan' ▸ hne⟩
    · exact Or.inr ⟨hmem, hscan', hne⟩
  · intro hother
    obtain ⟨rfl, hne⟩ | ⟨hmem, hscan', hne⟩ := hother
    · exact ⟨Or.inl hstart, by rw [hstart]; exact hscan, hne⟩
    · exact ⟨Or.inr hmem, hscan', hne⟩

private theorem Discovered.visit (h : Discovered a func (x :: wl) visited func') (hx : x ∉ visited) {bb : BasicBlock}
    (hscan : scan_block a func x = some bb) (hstart : bb.start = x) :
    Discovered a func (wl ++ bb.succs) (x :: visited)
      (if bb.insns = [] then func'
      else { func' with block_addrs := func'.block_addrs ++ [bb.start], blocks := func'.blocks.set bb }) := by
  have hkeep : ∀ y, y ∈ visited ∨ y ∈ x :: wl → y ∈ x :: visited ∨ y ∈ wl ++ bb.succs := by
    intro y hy
    rw [List.mem_cons, List.mem_append]
    rw [List.mem_cons] at hy
    tauto
  have hflows : ∀ y ∈ bb.succs, Leads a func x y := fun y hy => ⟨bb, hscan, hy⟩
  have hreach := h.reached x (Or.inr List.mem_cons_self)
  have hfresh : ∀ other ∈ func'.blocks.list, other.start ≠ bb.start := fun _ hother =>
    hstart ▸ h.fresh hx hother
  refine ⟨?_, ?_, hkeep _ h.seed, ?_, ?_, ?_, ?_⟩
  · split
    · exact h.entry
    · exact h.entry
  · split
    · exact h.ranges
    · exact h.ranges
  · intro y hy
    rw [List.mem_cons, List.mem_append] at hy
    obtain (rfl | hy) | hy | hy := hy
    · exact hreach
    · exact h.reached y (Or.inl hy)
    · exact h.reached y (Or.inr (List.mem_cons_of_mem _ hy))
    · exact hreach.tail (hflows y hy)
  · intro z hz y hzy
    obtain rfl | hz := List.mem_cons.mp hz
    · obtain ⟨bb', hscan', hy⟩ := hzy
      rw [hscan, Option.some.injEq] at hscan'
      rw [← hscan'] at hy
      exact Or.inr (List.mem_append_right _ hy)
    · exact hkeep y (h.closed z hz y hzy)
  · intro other
    rw [h.made_iff hscan hstart]
    by_cases hempty : bb.insns = []
    · rw [if_pos hempty]
      exact (or_iff_right fun hne => hne.2 hempty).symm
    · rw [if_neg hempty, Keyed.Map.mem_set, and_iff_left hempty]
      exact or_congr_right (and_iff_left_of_imp (hfresh other))
  · by_cases hempty : bb.insns = []
    · rw [if_pos hempty]
      exact h.addrs
    · rw [if_neg hempty]
      have hfilter : func'.blocks.list.filter (fun other => other.start ≠ bb.start) = func'.blocks.list := by
        rw [List.filter_eq_self]
        intro other hother
        exact decide_eq_true (hfresh other hother)
      show func'.block_addrs ++ [bb.start] =
        (func'.blocks.list.filter (fun other => other.start ≠ bb.start) ++ [bb]).map BasicBlock.start
      rw [hfilter, List.map_append, h.addrs]
      rfl

/-- A visit costs the step that it is and pays for the successors that it puts into the worklist. -/
theorem work_visit (hforward : Forward a) (hx : x ∉ visited) {bb : BasicBlock}
    (hscan : scan_block a func x = some bb) :
    work a func (wl ++ bb.succs) (x :: visited) < work a func (x :: wl) visited := by
  rw [work, work, List.length_append, List.length_cons]
  have hle : ∀ insn ∈ a.insns.list, (if insn.addr ∈ x :: visited then 0 else outs a func insn.addr) ≤
      if insn.addr ∈ visited then 0 else outs a func insn.addr := by
    intro insn _
    by_cases hmem : insn.addr ∈ visited
    · rw [if_pos hmem, if_pos (List.mem_cons_of_mem _ hmem)]
    · rw [if_neg hmem]
      split
      · exact Nat.zero_le _
      · exact Nat.le_refl _
  obtain ⟨bb', hscan', -, hscanned, hsuccs⟩ := scan_block_spec hforward func x
  rw [hscan, Option.some.injEq] at hscan'
  rw [← hscan'] at hscanned hsuccs
  have hinsns := hscanned.nonempty_iff
  by_cases hempty : bb.insns = []
  · have hnone : bb.succs = [] := by
      rw [hsuccs, hempty]
      rfl
    have hmono := List.total_mono hle
    rw [hnone, List.length_nil]
    omega
  · obtain ⟨insn, hfind⟩ := Option.isSome_iff_exists.mp (hinsns.mp hempty).1
    obtain ⟨hmem, haddr⟩ := Keyed.Map.find_eq_some.mp hfind
    have houts : outs a func x = bb.succs.length := by
      rw [outs, hscan]
      rfl
    have hless := List.total_add_le (w := bb.succs.length) hle
      ⟨insn, hmem, by rw [haddr, if_pos List.mem_cons_self, if_neg hx, houts, Nat.zero_add]⟩
    omega

/-- The worklist comes to its end. -/
theorem discover_spec (hforward : Forward a) {fuel : Nat} (h : Discovered a func wl visited func')
    (hfuel : work a func wl visited < fuel) :
    ∃ func'' visited', discover a fuel wl visited func' = some func'' ∧ Discovered a func [] visited' func'' := by
  induction fuel generalizing wl visited func' with
  | zero => exact absurd hfuel (Nat.not_lt_zero _)
  | succ fuel ih =>
    cases wl with
    | nil => exact ⟨func', visited, rfl, h⟩
    | cons x wl =>
      rw [discover]
      by_cases hx : x ∈ visited
      · rw [if_pos hx]
        refine ih (h.drop hx) ?_
        rw [work, List.length_cons] at hfuel
        rw [work]
        omega
      · rw [if_neg hx]
        obtain ⟨bb, hscan, hstart, -⟩ := scan_block_spec hforward func x
        have hsame : scan_block a func' x = scan_block a func x := by
          rw [scan_block, h.entry, h.ranges, scan_block]
        rw [hsame, hscan, Option.bind_some]
        refine ih (h.visit hx hscan hstart) ?_
        have hless : work a func (wl ++ bb.succs) (x :: visited) < work a func (x :: wl) visited :=
          work_visit hforward hx hscan
        omega

private theorem Discovered.start (hblocks : func.blocks.list = []) (haddrs : func.block_addrs = []) :
    Discovered a func [func.entry] [] func := by
  refine ⟨rfl, rfl, Or.inr List.mem_cons_self, ?_, ?_, ?_, ?_⟩
  · intro x hx
    rw [List.mem_singleton.mp (hx.resolve_left List.not_mem_nil)]
  · intro x hx
    exact absurd hx List.not_mem_nil
  · intro bb
    rw [hblocks]
    exact iff_of_false List.not_mem_nil fun h => List.not_mem_nil h.1
  · rw [hblocks, haddrs]
    rfl

private theorem Discovered.scanned (hforward : Forward a) (h : Discovered a func wl visited func') {bb : BasicBlock}
    (hbb : bb ∈ func'.blocks.list) : Straight a func.entry func.ranges bb.start bb.insns bb.end ∧
      bb.succs = (bb.insns.getLast?.map (exits a)).getD [] := by
  obtain ⟨-, hscan, hne⟩ := (h.blocks bb).mp hbb
  obtain ⟨bb', hscan', -, hscanned, hsuccs⟩ := scan_block_spec hforward func bb.start
  rw [hscan, Option.some.injEq] at hscan'
  rw [← hscan'] at hscanned hsuccs
  exact ⟨hscanned.resolve_left fun hempty => hne hempty.1, hsuccs⟩

/-- At the end of the worklist the visited addresses are those that control reaches. -/
theorem Discovered.visited_iff (h : Discovered a func [] visited func') :
    x ∈ visited ↔ Relation.ReflTransGen (Leads a func) func.entry x := by
  constructor
  · intro hx
    exact h.reached x (Or.inl hx)
  · intro hpath
    induction hpath with
    | refl => exact h.seed.resolve_right List.not_mem_nil
    | tail _ hflows ih => exact (h.closed _ ih _ hflows).resolve_right List.not_mem_nil

/-- An address has a block if control reaches it and there is an instruction in range. -/
theorem Discovered.start_iff (hforward : Forward a) (h : Discovered a func [] visited func') :
    x ∈ func'.blocks.list.map BasicBlock.start ↔ Relation.ReflTransGen (Leads a func) func.entry x ∧
      (a.insns.find x).isSome = true ∧ in_range func.ranges x = true := by
  obtain ⟨bb, hscan, rfl, hscanned, -⟩ := scan_block_spec hforward func x
  have hinsns := hscanned.nonempty_iff
  rw [List.mem_map, ← h.visited_iff]
  constructor
  · intro hx
    obtain ⟨bb', hbb', hstart⟩ := hx
    obtain ⟨hvisited, hscan', hne⟩ := (h.blocks bb').mp hbb'
    rw [hstart] at hvisited hscan'
    rw [hscan, Option.some.injEq] at hscan'
    exact ⟨hvisited, hinsns.mp (hscan' ▸ hne)⟩
  · intro hx
    exact ⟨bb, (h.blocks bb).mpr ⟨hx.1, hscan, hinsns.mpr hx.2⟩, rfl⟩

end Discover

section Link

private theorem push_preds (succs : List UInt64) (ba : UInt64) (blocks : Keyed.Map BasicBlock.start) :
    (succs.foldl (fun blocks s => push_pred blocks s ba) blocks).list =
      blocks.list.map fun bb =>
        { bb with preds := bb.preds ++ (succs.filter fun s => bb.start = s).map fun _ => ba } := by
  induction succs generalizing blocks with
  | nil => simp
  | cons s succs ih =>
    rw [List.foldl_cons, ih, push_pred, Keyed.Map.update, List.map_map]
    refine List.map_congr_left fun bb _ => ?_
    by_cases heq : bb.start = s
    · simp [heq]
    · simp [heq]

private theorem list_link (walked : List BasicBlock) (blocks : Keyed.Map BasicBlock.start) :
    (link walked blocks).list = blocks.list.map fun bb =>
      { bb with preds := bb.preds ++ walked.flatMap fun block =>
        (block.succs.filter fun s => bb.start = s).map fun _ => block.start } := by
  induction walked generalizing blocks with
  | nil => simp [link]
  | cons block walked ih =>
    have hcons : link (block :: walked) blocks =
        link walked (block.succs.foldl (fun blocks s => push_pred blocks s block.start) blocks) := rfl
    rw [hcons, ih, push_preds, List.map_map]
    refine List.map_congr_left fun bb _ => ?_
    simp

private theorem mem_preds {walked : List BasicBlock} {bb : BasicBlock} {p : UInt64} :
    (p ∈ walked.flatMap fun block => (block.succs.filter fun s => bb.start = s).map fun _ => block.start) ↔
      ∃ block ∈ walked, block.start = p ∧ bb.start ∈ block.succs := by
  rw [List.mem_flatMap]
  refine exists_congr fun block => and_congr_right fun _ => ?_
  rw [List.mem_map]
  constructor
  · intro h
    obtain ⟨s, hs, heq⟩ := h
    obtain ⟨hmem, hstart⟩ := List.mem_filter.mp hs
    exact ⟨heq, of_decide_eq_true hstart ▸ hmem⟩
  · intro h
    exact ⟨bb.start, List.mem_filter.mpr ⟨h.2, decide_eq_true rfl⟩, h.1⟩

private theorem nodup_preds {walked : List BasicBlock} (hdistinct : Keyed.Distinct BasicBlock.start walked)
    (hsuccs : ∀ block ∈ walked, block.succs.Nodup) (bb : BasicBlock) :
    (walked.flatMap fun block => (block.succs.filter fun s => bb.start = s).map fun _ => block.start).Nodup := by
  rw [List.nodup_flatMap]
  refine ⟨?_, ?_⟩
  · intro block hblock
    have hfilter := (hsuccs block hblock).filter fun s => bb.start = s
    refine (List.nodup_map_iff_inj_on hfilter).mpr fun s hs t ht _ => ?_
    rw [← of_decide_eq_true (List.mem_filter.mp hs).2, ← of_decide_eq_true (List.mem_filter.mp ht).2]
  · refine List.Pairwise.imp ?_ hdistinct
    intro block block' hne p hp hp'
    obtain ⟨_, _, rfl⟩ := List.mem_map.mp hp
    obtain ⟨_, _, heq⟩ := List.mem_map.mp hp'
    exact hne heq.symm

private theorem sort_succs_sorted (bb : BasicBlock) : (sort_succs bb).succs.Pairwise (· < ·) := by
  have hsorted : (bb.succs.mergeSort fun s t => s ≤ t).Pairwise (· ≤ ·) := by
    have htrans : ∀ s t u : UInt64, decide (s ≤ t) = true → decide (t ≤ u) = true → decide (s ≤ u) = true := by
      intro s t u hst htu
      exact decide_eq_true (UInt64.le_trans (of_decide_eq_true hst) (of_decide_eq_true htu))
    have htotal : ∀ s t : UInt64, (decide (s ≤ t) || decide (t ≤ s)) = true := by
      intro s t
      simpa using UInt64.le_total s t
    exact (List.pairwise_mergeSort htrans htotal bb.succs).imp of_decide_eq_true
  have hlt : ∀ {s t : UInt64}, s ≤ t → s ≠ t → s < t := fun hle hne => UInt64.lt_of_le_of_ne hle hne
  have htrans : ∀ {s t u : UInt64}, s < t → t ≤ u → s < u := fun hst htu => UInt64.lt_of_lt_of_le hst htu
  exact List.pairwise_unique hlt htrans hsorted

private theorem mem_sort_succs {bb : BasicBlock} {s : UInt64} : s ∈ (sort_succs bb).succs ↔ s ∈ bb.succs := by
  rw [sort_succs, List.mem_unique, List.mem_mergeSort]

end Link

/-- Each block lists the blocks that it is a successor of. -/
def Linked (func : Function) : Prop :=
  ∀ bb ∈ func.blocks.list, ∀ p, p ∈ bb.preds ↔ ∃ pb ∈ func.blocks.list, pb.start = p ∧ bb.start ∈ pb.succs

/-- The flow graph of a function: the blocks that control can reach, each with the whole line of
instructions that control takes from there, with all successors and with all predecessors. -/
structure FlowGraph (a : Analyzer) (func func' : Function) : Prop where
  entry : func'.entry = func.entry
  complete : ∀ va, (func'.blocks.find va).isSome = true ↔
    Relation.ReflTransGen (Flows a func) func.entry va ∧ (a.insns.find va).isSome = true ∧
      in_range func.ranges va = true
  straight : ∀ bb ∈ func'.blocks.list, Straight a func.entry func.ranges bb.start bb.insns bb.end
  sorted : ∀ bb ∈ func'.blocks.list, bb.succs.Pairwise (· < ·)
  succs : ∀ bb ∈ func'.blocks.list, ∀ s, s ∈ bb.succs ↔ ∃ insn, bb.insns.getLast? = some insn ∧ s ∈ exits a insn
  once : ∀ bb ∈ func'.blocks.list, bb.preds.Nodup
  linked : Linked func'
  addrs : func'.block_addrs = func'.blocks.list.map BasicBlock.start

/-- `build_one_cfg` ends, and it ends with the flow graph. -/
theorem build_one_cfg_exact {a : Analyzer} (hforward : Forward a) {walk : List BasicBlock → List BasicBlock}
    (hwalk : ∀ l, (walk l).Perm l) {func : Function} (hblocks : func.blocks.list = []) (haddrs : func.block_addrs = [])
    {fuel : Nat} (hfuel : work a func [func.entry] [] < fuel) :
    ∃ func', build_one_cfg a walk fuel func = some func' ∧ func'.analyzed = true ∧ FlowGraph a func func' := by
  obtain ⟨func', visited, hdiscover, h⟩ := discover_spec hforward (.start hblocks haddrs) hfuel
  obtain ⟨sorted, hsorted, hmap⟩ : ∃ sorted, sorted = func'.blocks.update sort_succs (fun _ => rfl) ∧
      sorted.list = func'.blocks.list.map sort_succs := ⟨_, rfl, rfl⟩
  have hlist : ∀ bb, bb ∈ sorted.list ↔ ∃ bb' ∈ func'.blocks.list, bb = sort_succs bb' := by
    intro bb
    rw [hmap, List.mem_map]
    exact exists_congr fun bb' => and_congr_right fun _ => eq_comm
  obtain ⟨linked, hlinked⟩ : ∃ linked, linked = link (walk sorted.list) sorted := ⟨_, rfl⟩
  -- Each block of the graph is one that the worklist has made, with its successors sorted and its predecessors.
  have hfinal : ∀ bb, bb ∈ linked.list ↔ ∃ bb' ∈ func'.blocks.list, bb = { sort_succs bb' with
      preds := (walk sorted.list).flatMap fun block =>
        (block.succs.filter fun s => bb'.start = s).map fun _ => block.start } := by
    intro bb
    rw [hlinked, list_link, hmap, List.map_map, List.mem_map]
    exact exists_congr fun bb' => and_congr_right fun _ => eq_comm
  have hwalked : ∀ block, block ∈ walk sorted.list ↔ block ∈ sorted.list := fun block => (hwalk _).mem_iff
  have hkeys : linked.list.map BasicBlock.start = func'.blocks.list.map BasicBlock.start := by
    rw [hlinked, list_link, hmap, List.map_map, List.map_map]
    rfl
  refine ⟨{ func' with blocks := linked, analyzed := true }, ?_, rfl, h.entry, ?_, ?_, ?_, ?_, ?_, ?_, ?_⟩
  · rw [build_one_cfg, hdiscover, hlinked, hsorted]
    rfl
  · intro va
    have hmem : va ∈ linked.list.map BasicBlock.start ↔ (linked.find va).isSome = true := by
      rw [List.mem_map, Keyed.Map.find_isSome]
    rw [← hmem, hkeys, ← leads_eq hforward]
    exact h.start_iff hforward
  · intro bb hbb
    obtain ⟨bb', hbb', rfl⟩ := (hfinal bb).mp hbb
    exact (h.scanned hforward hbb').1
  · intro bb hbb
    obtain ⟨bb', -, rfl⟩ := (hfinal bb).mp hbb
    exact sort_succs_sorted bb'
  · intro bb hbb s
    obtain ⟨bb', hbb', rfl⟩ := (hfinal bb).mp hbb
    have hsuccs := (h.scanned hforward hbb').2
    show s ∈ (sort_succs bb').succs ↔ ∃ insn, bb'.insns.getLast? = some insn ∧ s ∈ exits a insn
    rw [mem_sort_succs, hsuccs]
    cases bb'.insns.getLast? with
    | none => simp
    | some insn => simp
  · intro bb hbb
    obtain ⟨bb', -, rfl⟩ := (hfinal bb).mp hbb
    refine nodup_preds ?_ ?_ (sort_succs bb')
    · exact (hwalk sorted.list).symm.pairwise sorted.distinct fun hne => hne.symm
    · intro block hblock
      obtain ⟨block', -, rfl⟩ := (hlist block).mp ((hwalked block).mp hblock)
      exact (sort_succs_sorted block').imp fun hlt => UInt64.ne_of_lt hlt
  · intro bb hbb p
    obtain ⟨bb', -, rfl⟩ := (hfinal bb).mp hbb
    show p ∈ ((walk sorted.list).flatMap fun block =>
      (block.succs.filter fun s => (sort_succs bb').start = s).map fun _ => block.start) ↔ _
    rw [mem_preds]
    constructor
    · intro hp
      obtain ⟨block, hblock, hstart, hsucc⟩ := hp
      obtain ⟨block', hblock', rfl⟩ := (hlist block).mp ((hwalked block).mp hblock)
      exact ⟨_, (hfinal _).mpr ⟨block', hblock', rfl⟩, hstart, hsucc⟩
    · intro hp
      obtain ⟨pb, hpb, hstart, hsucc⟩ := hp
      obtain ⟨block', hblock', rfl⟩ := (hfinal pb).mp hpb
      exact ⟨sort_succs block', (hwalked _).mpr ((hlist _).mpr ⟨block', hblock', rfl⟩), hstart, hsucc⟩
  · show func'.block_addrs = linked.list.map BasicBlock.start
    rw [hkeys]
    exact h.addrs

/-- A loop that counts up: `mov` and a jump to the `inc`, a jump out of the loop behind it, a jump
back to it, and `ret`. -/
def count_up : Analyzer where
  insns := {
    list := [
      { addr := 0x10, len := 2, type := .mov },
      { addr := 0x12, ops := [{ val := 0x14, type := .imm }], len := 2, type := .jmp },
      { addr := 0x14, ops := [{ reg := 7, type := .reg }], len := 1, type := .inc },
      { addr := 0x15, ops := [{ val := 0x19, type := .imm }], len := 2, type := .jcc },
      { addr := 0x17, ops := [{ val := 0x14, type := .imm }], len := 2, type := .jmp },
      { addr := 0x19, len := 1, type := .ret }]
    distinct := by decide }

theorem count_up_graph :
    ∃ func', build_one_cfg count_up id 12 { entry := 0x10 } = some func' ∧ func'.analyzed = true ∧
      FlowGraph count_up { entry := 0x10 } func' :=
  build_one_cfg_exact (by unfold Forward; decide) (fun l => List.Perm.refl l) rfl rfl (by decide)

end Analyzer

end hype
