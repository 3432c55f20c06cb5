import ReverseSlop.Hyperion.Analysis.Cfg
import ReverseSlop.Library.IterativeDominators

namespace hype

namespace Analyzer

structure frame_t where
  addr : UInt64
  block : BasicBlock
  next_succ : Nat := 0

/-- The depth-first walk, the top of the stack first. A block that is on the stack has the index -1. -/
structure walk_t where
  postorder : List BasicBlock := []
  rpo_index : UInt64 → Option Int
  stack : List frame_t

/-- The walk at the entry. -/
def walk_t.start (func : Function) (block : BasicBlock) : walk_t where
  rpo_index := Function.update (fun _ => none) func.entry (some (-1))
  stack := [{ addr := func.entry, block }]

/-- The next successor of the top has been taken. -/
def walk_t.advance (s : walk_t) (top : frame_t) (below : List frame_t) : walk_t :=
  { s with stack := { top with next_succ := top.next_succ + 1 } :: below }

def walk_t.push (s : walk_t) (succ : UInt64) (block : BasicBlock) : walk_t :=
  { s with rpo_index := Function.update s.rpo_index succ (some (-1)), stack := { addr := succ, block } :: s.stack }

def walk_t.finish (s : walk_t) (top : frame_t) (below : List frame_t) : walk_t where
  postorder := s.postorder ++ [top.block]
  rpo_index := Function.update s.rpo_index top.addr (some s.postorder.length)
  stack := below

def walk_step (func : Function) (s : walk_t) (top : frame_t) (below : List frame_t) : walk_t :=
  match top.block.succs[top.next_succ]? with
  | some succ =>
    match func.blocks.find succ with
    | some block => if s.rpo_index succ = none then (s.advance top below).push succ block else s.advance top below
    | none => s.advance top below
  | none => s.finish top below

/-- The loop of the walk; `none` is one that has not ended after `fuel` rounds. -/
def walk (func : Function) : Nat → walk_t → Option walk_t
  | 0, _ => none
  | fuel + 1, s =>
    match s.stack with
    | [] => some s
    | top :: below => walk func fuel (walk_step func s top below)

/-- The reverse postorder, with the place of each block in it. -/
structure order_t where
  rpo : List BasicBlock
  rpo_index : UInt64 → Option Int

def walk_t.order (s : walk_t) : order_t where
  rpo := s.postorder.reverse
  rpo_index addr := (s.rpo_index addr).map fun index => s.postorder.length - 1 - index

/-- An entry of the map as an index into the vectors. -/
def order_t.find (order : order_t) (addr : UInt64) : Option Nat := (order.rpo_index addr).map Int.toNat

/-- `a > b`, where `none` is -1. -/
def greater : Option Nat → Option Nat → Bool
  | none, _ => false
  | some _, none => true
  | some a, some b => a > b

/-- `while (a > b) a = idom[a];` -/
def climb (idom : Nat → Option Nat) (b : Option Nat) : Nat → Option Nat → Option (Option Nat)
  | 0, _ => none
  | fuel + 1, a => if greater a b then climb idom b fuel (a.bind idom) else some a

def intersect (fuel : Nat) (idom : Nat → Option Nat) : Nat → Option Nat → Option Nat → Option (Option Nat)
  | 0, _, _ => none
  | rounds + 1, a, b =>
    if a = b then some a
    else
      (climb idom b fuel a).bind fun a' => (climb idom a' fuel b).bind fun b' => intersect fuel idom rounds a' b'

/-- The loop over the predecessors that have an index. -/
def meet_pred (fuel : Nat) (idom : Nat → Option Nat) (new_idom : Option Nat) (pred : Nat) : Option (Option Nat) :=
  if idom pred = none then some new_idom
  else
    match new_idom with
    | none => some (some pred)
    | some d => intersect fuel idom fuel (some d) (some pred)

def order_t.preds (order : order_t) (ri : Nat) : List UInt64 := ((order.rpo[ri]?).map BasicBlock.preds).getD []

def new_idom (fuel : Nat) (order : order_t) (idom : Nat → Option Nat) (ri : Nat) : Option (Option Nat) :=
  (order.preds ri).foldlM (fun found pred =>
    match order.find pred with
    | some index => meet_pred fuel idom found index
    | none => some found) none

def dominators (fuel : Nat) (order : order_t) : Option (Nat → Option Nat) :=
  Dominance.iterate (new_idom fuel order) (List.range order.rpo.length) fuel (Dominance.planted 0)

/-- A predecessor that is not in the loop yet goes into it and into the worklist. -/
def push_pred_block (order : order_t) (s : List UInt64 × List UInt64) (pred : UInt64) : List UInt64 × List UInt64 :=
  if (order.rpo_index pred).isSome ∧ pred ∉ s.2 then (s.1 ++ [pred], s.2 ++ [pred]) else s

/-- The worklist of a loop's body; `none` is also what `func.blocks.at` throws. -/
def loop_body (func : Function) (order : order_t) : Nat → List UInt64 → List UInt64 → Option (List UInt64)
  | 0, _, _ => none
  | _ + 1, [], loop_blocks => some loop_blocks
  | fuel + 1, current :: worklist, loop_blocks =>
    (func.blocks.find current).bind fun block =>
      let s := block.preds.foldl (push_pred_block order) (worklist, loop_blocks)
      loop_body func order fuel s.1 s.2

/-- The register that an instruction counts up. -/
def counted (insn : Insn) : Option UInt16 :=
  match insn.type, insn.ops with
  | .inc, op :: _ => if op.type = .reg then some op.reg else none
  | .add, op :: op' :: _ => if op.type = .reg ∧ op'.type = .imm ∧ op'.val = 1 then some op.reg else none
  | _, _ => none

/-- The first such register in the blocks, as the set of them is walked. -/
def induction_reg (func : Function) : List UInt64 → Option UInt16
  | [] => some 0
  | loop_block :: rest =>
    (func.blocks.find loop_block).bind fun block =>
      match block.insns.findSome? counted with
      | some reg => some reg
      | none => induction_reg func rest

section

variable (fuel : Nat) (walked : List UInt64 → List UInt64) (func : Function) (order : order_t)
  (idom : Nat → Option Nat)

/-- The loop that an edge closes, if its target dominates its source. -/
def edge_loop (si : Nat) (bb : BasicBlock) (succ : UInt64) : Option (Option LoopInfo) :=
  match order.find succ with
  | none => some none
  | some target =>
    (climb idom (some target) fuel (some si)).bind fun runner =>
      if runner ≠ some target then some none
      else
        let latch := if bb.start ≠ succ then [bb.start] else []
        (loop_body func order fuel latch (succ :: latch)).bind fun loop_blocks =>
          (induction_reg func (walked loop_blocks)).map fun reg =>
            some { header := succ, back_edge_src := bb.start, induction_reg := reg }

def edge_loops : List (BasicBlock × Nat × UInt64) → Option (List LoopInfo)
  | [] => some []
  | (bb, si, succ) :: rest =>
    (edge_loop fuel walked func order idom si bb succ).bind fun loop =>
      (edge_loops rest).map fun loops => loop.toList ++ loops

end

def order_t.edges (order : order_t) : List (BasicBlock × Nat × UInt64) :=
  order.rpo.zipIdx.flatMap fun b => b.1.succs.map fun succ => (b.1, b.2, succ)

/-- `detect_loops` for one function. -/
def detect_loops (walked : List UInt64 → List UInt64) (fuel : Nat) (func : Function) : Option Function :=
  (func.blocks.find func.entry).bind fun block =>
    (walk func fuel (walk_t.start func block)).bind fun s =>
      (dominators fuel s.order).bind fun idom =>
        (edge_loops fuel walked func s.order idom s.order.edges).map fun loops => { func with loops }

/-- The edges of the flow graph. -/
def Edge (func : Function) (x y : UInt64) : Prop :=
  ∃ bb, func.blocks.find x = some bb ∧ y ∈ bb.succs ∧ (func.blocks.find y).isSome = true

/-- The finished blocks in postorder and behind them those on the stack, from the top down. -/
def walk_t.line (s : walk_t) : List UInt64 := s.postorder.map BasicBlock.start ++ s.stack.map frame_t.addr

/-- What the walk keeps: nothing on the line stands in front of all its predecessors, and the finished blocks have all
their successors on it. -/
structure Walked (func : Function) (s : walk_t) : Prop where
  frames : ∀ fr ∈ s.stack, func.blocks.find fr.addr = some fr.block
  blocks : ∀ bb ∈ s.postorder, func.blocks.find bb.start = some bb
  index : ∀ x, s.rpo_index x =
    if x ∈ s.postorder.map BasicBlock.start then some ((s.postorder.map BasicBlock.start).idxOf x : Int)
    else if x ∈ s.stack.map frame_t.addr then some (-1) else none
  nodup : s.line.Nodup
  entry : func.entry ∈ s.line
  reached : ∀ x ∈ s.line, Relation.ReflTransGen (Edge func) func.entry x
  later : ∀ front x back, s.line = front ++ x :: back → x = func.entry ∨ ∃ y ∈ back, Edge func y x
  closed : ∀ bb ∈ s.postorder, ∀ y, Edge func bb.start y → y ∈ s.line
  taken : ∀ fr ∈ s.stack, ∀ y ∈ fr.block.succs.take fr.next_succ, (func.blocks.find y).isSome = true → y ∈ s.line

/-- The rounds that the walk has yet to make. -/
def walk_t.work (func : Function) (s : walk_t) : Nat :=
  s.stack.total (fun fr => fr.block.succs.length - fr.next_succ + 1) +
    func.blocks.list.total fun bb => if bb.start ∈ s.line then 0 else bb.succs.length + 1

section Walk

variable {func : Function} {s : walk_t} {top : frame_t} {below : List frame_t}

private theorem line_of_stack (hstack : s.stack = top :: below) :
    s.line = s.postorder.map BasicBlock.start ++ top.addr :: below.map frame_t.addr := by
  rw [walk_t.line, hstack]
  rfl

private theorem line_advance (hstack : s.stack = top :: below) : (s.advance top below).line = s.line := by
  rw [line_of_stack hstack]
  rfl

private theorem line_push (s : walk_t) (top : frame_t) (below : List frame_t) (succ : UInt64) (block : BasicBlock) :
    ((s.advance top below).push succ block).line =
      s.postorder.map BasicBlock.start ++ succ :: top.addr :: below.map frame_t.addr := rfl

private theorem mem_line_push (hstack : s.stack = top :: below) {succ : UInt64} {block : BasicBlock} {x : UInt64} :
    x ∈ ((s.advance top below).push succ block).line ↔ x = succ ∨ x ∈ s.line := by
  rw [line_push, line_of_stack hstack, List.perm_middle.mem_iff, List.mem_cons]

private theorem Walked.start_top (h : Walked func s) (hstack : s.stack = top :: below) : top.block.start = top.addr :=
  (Keyed.Map.find_eq_some.mp (h.frames top (hstack ▸ List.mem_cons_self))).2

private theorem Walked.line_finish (h : Walked func s) (hstack : s.stack = top :: below) :
    (s.finish top below).line = s.line := by
  rw [line_of_stack hstack, walk_t.line, walk_t.finish, List.map_append, List.map_singleton, h.start_top hstack,
    List.append_assoc]
  rfl

/-- A block that all successors have been taken from is finished: the line stays the same. -/
theorem Walked.finish (h : Walked func s) (hstack : s.stack = top :: below)
    (hnone : top.block.succs[top.next_succ]? = none) : Walked func (s.finish top below) := by
  have htop := h.frames top (hstack ▸ List.mem_cons_self)
  have haddr := h.start_top hstack
  have hsame := h.line_finish hstack
  have hnodup := h.nodup
  rw [line_of_stack hstack] at hnodup
  have hfresh : top.addr ∉ s.postorder.map BasicBlock.start := by
    intro hmem
    exact (List.nodup_append.mp hnodup).2.2 top.addr hmem top.addr List.mem_cons_self rfl
  have hpost : (s.finish top below).postorder.map BasicBlock.start =
      s.postorder.map BasicBlock.start ++ [top.addr] := by
    rw [walk_t.finish, List.map_append, List.map_singleton, haddr]
  refine ⟨?_, ?_, ?_, hsame ▸ h.nodup, hsame ▸ h.entry, hsame ▸ h.reached, hsame ▸ h.later, ?_, ?_⟩
  · intro fr hfr
    exact h.frames fr (hstack ▸ List.mem_cons_of_mem _ hfr)
  · intro bb hbb
    obtain hbb | hbb := List.mem_append.mp hbb
    · exact h.blocks bb hbb
    · rw [List.mem_singleton.mp hbb, haddr]
      exact htop
  · intro x
    rw [hpost]
    show Function.update s.rpo_index top.addr (some (s.postorder.length : Int)) x =
      if _ then _ else if x ∈ below.map frame_t.addr then some (-1) else none
    by_cases hx : x = top.addr
    · rw [hx, Function.update_self, if_pos (List.mem_append_right _ List.mem_cons_self),
        List.idxOf_append_of_notMem hfresh, List.idxOf_cons_self, List.length_map]
      rfl
    · rw [Function.update_of_ne hx, h.index x, hstack, List.map_cons]
      by_cases hmem : x ∈ s.postorder.map BasicBlock.start
      · rw [if_pos hmem, if_pos (List.mem_append_left _ hmem), List.idxOf_append_of_mem hmem]
      · have hmem' : x ∉ s.postorder.map BasicBlock.start ++ [top.addr] := by
          rw [List.mem_append, List.mem_singleton]
          exact not_or.mpr ⟨hmem, hx⟩
        rw [if_neg hmem, if_neg hmem']
        simp only [List.mem_cons, hx, false_or]
  · intro bb hbb y hedge
    rw [hsame]
    obtain hbb | hbb := List.mem_append.mp hbb
    · exact h.closed bb hbb y hedge
    · obtain ⟨bb', hfind, hsucc, hsome⟩ := hedge
      rw [List.mem_singleton.mp hbb, haddr, htop, Option.some.injEq] at hfind
      refine h.taken top (hstack ▸ List.mem_cons_self) y ?_ hsome
      rw [List.take_of_length_le (List.getElem?_eq_none_iff.mp hnone), hfind]
      exact hsucc
  · intro fr hfr y hy hsome
    rw [hsame]
    exact h.taken fr (hstack ▸ List.mem_cons_of_mem _ hfr) y hy hsome

/-- The frames below the top keep their places, and the top has one more. -/
theorem Walked.taken_advance (h : Walked func s) (hstack : s.stack = top :: below) {succ : UInt64}
    (hsucc : top.block.succs[top.next_succ]? = some succ) {fr : frame_t} (hfr : fr ∈ (s.advance top below).stack)
    {y : UInt64} (hy : y ∈ fr.block.succs.take fr.next_succ) (hsome : (func.blocks.find y).isSome = true) :
    y = succ ∨ y ∈ s.line := by
  obtain rfl | hfr := List.mem_cons.mp hfr
  · rw [List.take_add_one, List.mem_append] at hy
    obtain hy | hy := hy
    · exact Or.inr (h.taken top (hstack ▸ List.mem_cons_self) y hy hsome)
    · rw [hsucc, Option.toList_some, List.mem_singleton] at hy
      exact Or.inl hy
  · exact Or.inr (h.taken fr (hstack ▸ List.mem_cons_of_mem _ hfr) y hy hsome)

private theorem Walked.frames_advance (h : Walked func s) (hstack : s.stack = top :: below) {fr : frame_t}
    (hfr : fr ∈ (s.advance top below).stack) : func.blocks.find fr.addr = some fr.block := by
  obtain rfl | hfr := List.mem_cons.mp hfr
  · exact h.frames top (hstack ▸ List.mem_cons_self)
  · exact h.frames fr (hstack ▸ List.mem_cons_of_mem _ hfr)

/-- A successor that is no block, or that is on the line already, is passed over. -/
theorem Walked.advance (h : Walked func s) (hstack : s.stack = top :: below) {succ : UInt64}
    (hsucc : top.block.succs[top.next_succ]? = some succ)
    (hseen : (func.blocks.find succ).isSome = true → succ ∈ s.line) : Walked func (s.advance top below) := by
  have hline := line_advance hstack
  refine ⟨fun _ => h.frames_advance hstack, h.blocks, ?_, hline ▸ h.nodup, hline ▸ h.entry, hline ▸ h.reached,
    hline ▸ h.later, ?_, ?_⟩
  · intro x
    have hindex := h.index x
    rw [hstack] at hindex
    exact hindex
  · intro bb hbb y hedge
    rw [hline]
    exact h.closed bb hbb y hedge
  · intro fr hfr y hy hsome
    rw [hline]
    obtain heq | hmem := h.taken_advance hstack hsucc hfr hy hsome
    · rw [heq] at hsome ⊢
      exact hseen hsome
    · exact hmem

/-- A new block is put between the finished ones and the stack, which has a predecessor of it on top. -/
theorem Walked.push (h : Walked func s) (hstack : s.stack = top :: below) {succ : UInt64} {block : BasicBlock}
    (hsucc : top.block.succs[top.next_succ]? = some succ) (hfind : func.blocks.find succ = some block)
    (hfresh : succ ∉ s.line) : Walked func ((s.advance top below).push succ block) := by
  have hline := line_of_stack hstack
  have hline' := line_push s top below succ block
  have hedge : Edge func top.addr succ :=
    ⟨top.block, h.frames top (hstack ▸ List.mem_cons_self), List.mem_of_getElem? hsucc, by rw [hfind]; rfl⟩
  have htop : top.addr ∈ s.line := by
    rw [hline]
    exact List.mem_append_right _ List.mem_cons_self
  refine ⟨?_, h.blocks, ?_, ?_, (mem_line_push hstack).mpr (Or.inr h.entry), ?_, ?_, ?_, ?_⟩
  · intro fr hfr
    obtain rfl | hfr := List.mem_cons.mp hfr
    · exact hfind
    · exact h.frames_advance hstack hfr
  · intro x
    show Function.update s.rpo_index succ (some (-1)) x = if x ∈ s.postorder.map BasicBlock.start then _
      else if x ∈ succ :: top.addr :: below.map frame_t.addr then some (-1) else none
    by_cases hx : x = succ
    · have hpost : succ ∉ s.postorder.map BasicBlock.start := fun hpost => hfresh (List.mem_append_left _ hpost)
      rw [hx, if_neg hpost, if_pos List.mem_cons_self, Function.update_self]
    · rw [Function.update_of_ne hx, h.index x, hstack, List.map_cons]
      simp only [List.mem_cons, hx, false_or]
      rfl
  · rw [hline', List.perm_middle.nodup_iff, ← hline]
    exact List.nodup_cons.mpr ⟨hfresh, h.nodup⟩
  · intro x hx
    obtain rfl | hx := (mem_line_push hstack).mp hx
    · exact (h.reached _ htop).tail hedge
    · exact h.reached x hx
  · intro front x back hsplit
    rw [hline'] at hsplit
    obtain ⟨tail, hfront, hback⟩ | ⟨tail, hpost, hback⟩ := List.append_eq_append_iff.mp hsplit
    · cases tail with
      | nil =>
        rw [List.nil_append, List.cons.injEq] at hback
        refine Or.inr ⟨top.addr, ?_, hback.1 ▸ hedge⟩
        rw [← hback.2]
        exact List.mem_cons_self
      | cons z tail =>
        rw [List.cons_append, List.cons.injEq] at hback
        refine h.later (s.postorder.map BasicBlock.start ++ tail) x back ?_
        rw [hline, hback.2, List.append_assoc]
    · cases tail with
      | nil =>
        rw [List.nil_append, List.cons.injEq] at hback
        refine Or.inr ⟨top.addr, ?_, hback.1.symm ▸ hedge⟩
        rw [hback.2]
        exact List.mem_cons_self
      | cons z tail =>
        rw [List.cons_append, List.cons.injEq] at hback
        have hold : s.line = front ++ x :: (tail ++ top.addr :: below.map frame_t.addr) := by
          rw [hline, hpost, hback.1, List.append_assoc]
          rfl
        obtain heq | ⟨y, hy, hyx⟩ := h.later _ _ _ hold
        · exact Or.inl heq
        · refine Or.inr ⟨y, ?_, hyx⟩
          rw [hback.2]
          obtain hy | hy := List.mem_append.mp hy
          · exact List.mem_append_left _ hy
          · exact List.mem_append_right _ (List.mem_cons_of_mem _ hy)
  · intro bb hbb y hyedge
    exact (mem_line_push hstack).mpr (Or.inr (h.closed bb hbb y hyedge))
  · intro fr hfr y hy hsome
    rw [mem_line_push hstack]
    obtain rfl | hfr := List.mem_cons.mp hfr
    · exact absurd hy (by simp)
    · exact h.taken_advance hstack hsucc hfr hy hsome

private theorem Walked.not_seen (h : Walked func s) (x : UInt64) : s.rpo_index x = none ↔ x ∉ s.line := by
  rw [h.index x, walk_t.line, List.mem_append, not_or]
  by_cases hpost : x ∈ s.postorder.map BasicBlock.start
  · rw [if_pos hpost]
    exact iff_of_false (Option.some_ne_none _) fun hx => hx.1 hpost
  by_cases hframe : x ∈ s.stack.map frame_t.addr
  · rw [if_neg hpost, if_pos hframe]
    exact iff_of_false (Option.some_ne_none _) fun hx => hx.2 hframe
  · rw [if_neg hpost, if_neg hframe]
    exact iff_of_true rfl ⟨hpost, hframe⟩

private theorem work_of_stack (hstack : s.stack = top :: below) :
    s.work func = (top.block.succs.length - top.next_succ + 1) +
      below.total (fun fr => fr.block.succs.length - fr.next_succ + 1) +
      func.blocks.list.total fun bb => if bb.start ∈ s.line then 0 else bb.succs.length + 1 := by
  rw [walk_t.work, hstack, List.total]

private theorem work_finish (h : Walked func s) (hstack : s.stack = top :: below) :
    (s.finish top below).work func < s.work func := by
  have hbelow : (s.finish top below).stack = below := rfl
  rw [work_of_stack hstack, walk_t.work, h.line_finish hstack, hbelow]
  omega

private theorem work_advance (hstack : s.stack = top :: below) (hlt : top.next_succ < top.block.succs.length) :
    (s.advance top below).work func < s.work func := by
  have hstack' : (s.advance top below).stack = { top with next_succ := top.next_succ + 1 } :: below := rfl
  rw [work_of_stack hstack, work_of_stack hstack', line_advance hstack]
  simp only
  omega

/-- A push pays for the rounds of the new frame with those of the block that has been found. -/
theorem work_push (hstack : s.stack = top :: below) (hlt : top.next_succ < top.block.succs.length) {succ : UInt64}
    {block : BasicBlock} (hfind : func.blocks.find succ = some block) (hfresh : succ ∉ s.line) :
    ((s.advance top below).push succ block).work func < s.work func := by
  obtain ⟨hblock, hstart⟩ := Keyed.Map.find_eq_some.mp hfind
  have hless : func.blocks.list.total (fun bb =>
        if bb.start ∈ ((s.advance top below).push succ block).line then 0 else bb.succs.length + 1) +
      (block.succs.length + 1) ≤
        func.blocks.list.total fun bb => if bb.start ∈ s.line then 0 else bb.succs.length + 1 := by
    apply List.total_add_le
    · intro bb _
      by_cases hbb : bb.start ∈ s.line
      · rw [if_pos hbb, if_pos ((mem_line_push hstack).mpr (Or.inr hbb))]
      · rw [if_neg hbb]
        split
        · exact Nat.zero_le _
        · exact Nat.le_refl _
    · refine ⟨block, hblock, ?_⟩
      rw [hstart, if_neg hfresh, if_pos ((mem_line_push hstack).mpr (Or.inl rfl)), Nat.zero_add]
  have hstack' : ((s.advance top below).push succ block).stack =
      { addr := succ, block } :: { top with next_succ := top.next_succ + 1 } :: below := rfl
  rw [work_of_stack hstack, work_of_stack hstack', List.total]
  simp only
  omega

private theorem Walked.step (h : Walked func s) (hstack : s.stack = top :: below) :
    Walked func (walk_step func s top below) ∧ (walk_step func s top below).work func < s.work func := by
  cases hsucc : top.block.succs[top.next_succ]? with
  | none =>
    have hstep : walk_step func s top below = s.finish top below := by rw [walk_step, hsucc]
    rw [hstep]
    exact ⟨h.finish hstack hsucc, work_finish h hstack⟩
  | some succ =>
    have hlt : top.next_succ < top.block.succs.length := (List.getElem?_eq_some_iff.mp hsucc).1
    cases hfind : func.blocks.find succ with
    | none =>
      have hstep : walk_step func s top below = s.advance top below := by simp only [walk_step, hsucc, hfind]
      rw [hstep]
      refine ⟨h.advance hstack hsucc fun hsome => ?_, work_advance hstack hlt⟩
      rw [hfind] at hsome
      cases hsome
    | some block =>
      by_cases hfresh : s.rpo_index succ = none
      · have hstep : walk_step func s top below = (s.advance top below).push succ block := by
          simp only [walk_step, hsucc, hfind, hfresh, if_true]
        have hnew := (h.not_seen succ).mp hfresh
        rw [hstep]
        exact ⟨h.push hstack hsucc hfind hnew, work_push hstack hlt hfind hnew⟩
      · have hstep : walk_step func s top below = s.advance top below := by
          simp only [walk_step, hsucc, hfind, hfresh, if_false]
        have hseen : succ ∈ s.line := not_not.mp fun hnew => hfresh ((h.not_seen succ).mpr hnew)
        rw [hstep]
        exact ⟨h.advance hstack hsucc fun _ => hseen, work_advance hstack hlt⟩

private theorem line_start (func : Function) (block : BasicBlock) : (walk_t.start func block).line = [func.entry] := rfl

private theorem Walked.start {block : BasicBlock} (hblock : func.blocks.find func.entry = some block) :
    Walked func (.start func block) := by
  have hline := line_start func block
  refine ⟨?_, ?_, ?_, hline ▸ List.nodup_singleton _, hline ▸ List.mem_cons_self, ?_, ?_, ?_, ?_⟩
  · intro fr hfr
    rw [List.mem_singleton.mp hfr]
    exact hblock
  · intro bb hbb
    exact absurd hbb List.not_mem_nil
  · intro x
    by_cases hx : x = func.entry
    · simp [walk_t.start, hx]
    · simp [walk_t.start, hx]
  · intro x hx
    rw [hline] at hx
    rw [List.mem_singleton.mp hx]
  · intro front x back hsplit
    rw [hline] at hsplit
    have hmem : x ∈ [func.entry] := hsplit ▸ List.mem_append_right _ List.mem_cons_self
    exact Or.inl (List.mem_singleton.mp hmem)
  · intro bb hbb
    exact absurd hbb List.not_mem_nil
  · intro fr hfr y hy
    rw [List.mem_singleton.mp hfr] at hy
    exact absurd hy (by simp)

/-- The walk makes at most a round for each block and each of the successors. -/
theorem work_start {block : BasicBlock} (hblock : func.blocks.find func.entry = some block) :
    (walk_t.start func block).work func ≤ func.blocks.list.total fun bb => bb.succs.length + 1 := by
  obtain ⟨hmem, haddr⟩ := Keyed.Map.find_eq_some.mp hblock
  have hline := line_start func block
  have hless : func.blocks.list.total
        (fun bb => if bb.start ∈ (walk_t.start func block).line then 0 else bb.succs.length + 1) +
      (block.succs.length + 1) ≤ func.blocks.list.total fun bb => bb.succs.length + 1 := by
    apply List.total_add_le
    · intro bb _
      split
      · exact Nat.zero_le _
      · exact Nat.le_refl _
    · refine ⟨block, hmem, ?_⟩
      rw [haddr, hline, if_pos List.mem_cons_self, Nat.zero_add]
  have hstack : (walk_t.start func block).stack = [{ addr := func.entry, block }] := rfl
  rw [work_of_stack hstack, List.total]
  simp only
  omega

private theorem walk_spec {fuel : Nat} (h : Walked func s) (hfuel : s.work func < fuel) :
    ∃ s', walk func fuel s = some s' ∧ Walked func s' ∧ s'.stack = [] := by
  induction fuel generalizing s with
  | zero => exact absurd hfuel (Nat.not_lt_zero _)
  | succ fuel ih =>
    rw [walk]
    cases hstack : s.stack with
    | nil => exact ⟨s, rfl, h, hstack⟩
    | cons top below =>
      obtain ⟨hnext, hless⟩ := h.step hstack
      exact ih hnext (by omega)

/-- The postorder read backwards: the reachable blocks, the entry first, and each other one behind a predecessor. -/
theorem Walked.rpo (h : Walked func s) (hstack : s.stack = []) :
    Dominance.Order (Edge func) func.entry (s.order.rpo.map BasicBlock.start) := by
  have hline : s.line = s.postorder.map BasicBlock.start := by
    rw [walk_t.line, hstack]
    exact List.append_nil _
  have hrpo : s.order.rpo.map BasicBlock.start = (s.postorder.map BasicBlock.start).reverse := List.map_reverse
  rw [hrpo]
  have hnodup := h.nodup
  have hentry := h.entry
  have hreached := h.reached
  have hlater := h.later
  rw [hline] at hnodup hentry hreached hlater
  apply Dominance.Order.of_postorder hnodup hentry ?_ hreached hlater
  intro x hx y hedge
  obtain ⟨bb, hbb, rfl⟩ := List.mem_map.mp hx
  exact hline ▸ h.closed bb hbb y hedge

private theorem Walked.order_find (h : Walked func s) (hstack : s.stack = []) (x : UInt64) :
    s.order.find x =
      if x ∈ s.order.rpo.map BasicBlock.start then some ((s.order.rpo.map BasicBlock.start).idxOf x) else none := by
  have hrpo : s.order.rpo.map BasicBlock.start = (s.postorder.map BasicBlock.start).reverse := List.map_reverse
  rw [hrpo, order_t.find, walk_t.order]
  simp only
  rw [h.index x, hstack]
  by_cases hx : x ∈ s.postorder.map BasicBlock.start
  · have hnodup : (s.postorder.map BasicBlock.start).reverse.Nodup := by
      have hline : s.line = s.postorder.map BasicBlock.start := by
        rw [walk_t.line, hstack]
        exact List.append_nil _
      exact List.nodup_reverse.mpr (hline ▸ h.nodup)
    have hlt := List.idxOf_lt_length_iff.mpr hx
    have hat : (s.postorder.map BasicBlock.start).reverse[(s.postorder.map BasicBlock.start).length - 1 -
        (s.postorder.map BasicBlock.start).idxOf x]? = some x := by
      rw [List.getElem?_reverse (by omega), Nat.sub_sub_self (by omega), List.getElem?_eq_getElem hlt,
        List.getElem_idxOf]
    obtain ⟨hlt', hget⟩ := List.getElem?_eq_some_iff.mp hat
    have hidx := hnodup.idxOf_getElem _ hlt'
    rw [hget] at hidx
    rw [if_pos hx, if_pos (List.mem_reverse.mpr hx), hidx, List.length_map]
    rw [List.length_map] at hlt
    simp only [Option.map_some, Option.some.injEq]
    omega
  · rw [if_neg hx, if_neg fun hmem => hx (List.mem_reverse.mp hmem)]
    rfl

end Walk

section Tree

variable {n : Nat} {idom : Nat → Option Nat} (hplaced : Dominance.Placed 0 (List.range n) idom)

include hplaced

private theorem placed_up {i d : Nat} (h : idom i = some d) : i < n ∧ (idom d).isSome = true ∧ (i ≠ 0 → d < i) := by
  obtain ⟨hi, hd, hless⟩ := hplaced.up i d h
  rw [List.mem_range] at hi
  obtain ⟨e, he⟩ := Option.isSome_iff_exists.mp hd
  have hdn := List.mem_range.mp (hplaced.up d e he).1
  rw [Dominance.idxOf_range hi, Dominance.idxOf_range hdn] at hless
  exact ⟨hi, hd, hless⟩

private theorem placed_rooted : Dominance.Rooted 0 id (Dominance.above 0 idom) := by
  intro i hi
  cases h : idom i with
  | none =>
    rw [Dominance.above, h]
    exact Nat.pos_of_ne_zero hi
  | some d =>
    rw [Dominance.above_of_some h]
    exact (placed_up hplaced h).2.2 hi

private theorem climb_spec {b fuel i : Nat} (hi : (idom i).isSome = true) (hfuel : i < fuel) :
    ∃ i', climb idom (some b) fuel (some i) = some (some i') ∧ (idom i').isSome = true ∧ i' ≤ b ∧
      (i' = i ∨ i' < i ∧ b < i) ∧
      ∀ d, Dominance.Chain 0 (Dominance.above 0 idom) i' d ∧ Dominance.Chain 0 (Dominance.above 0 idom) b d ↔
        Dominance.Chain 0 (Dominance.above 0 idom) i d ∧ Dominance.Chain 0 (Dominance.above 0 idom) b d := by
  induction fuel generalizing i with
  | zero => exact absurd hfuel (Nat.not_lt_zero _)
  | succ fuel ih =>
    rw [climb, greater]
    by_cases hlt : b < i
    · obtain ⟨d, hd⟩ := Option.isSome_iff_exists.mp hi
      have hne : i ≠ 0 := Nat.ne_zero_of_lt hlt
      obtain ⟨-, hsome, hless⟩ := placed_up hplaced hd
      have hstep := hless hne
      obtain ⟨i', hclimb, hdefined, hle, hcase, hcommon⟩ := ih hsome (by omega)
      rw [if_pos (decide_eq_true hlt), Option.bind_some, hd]
      refine ⟨i', hclimb, hdefined, hle, Or.inr ⟨?_, hlt⟩, ?_⟩
      · obtain heq | hcase := hcase
        · rw [heq]
          exact hstep
        · omega
      · intro e
        rw [hcommon e, ← Dominance.common_up (placed_rooted hplaced) hlt hne, Dominance.above_of_some hd]
    · rw [if_neg fun h => hlt (of_decide_eq_true h)]
      exact ⟨i, rfl, hi, Nat.not_lt.mp hlt, Or.inl rfl, fun _ => Iff.rfl⟩

/-- The walk up from a block comes to rest on the target where the target is above the block, and only there. -/
theorem climb_target {i fuel : Nat} (target : Nat) (hi : (idom i).isSome = true) (hfuel : i < fuel) :
    ∃ runner, climb idom (some target) fuel (some i) = some runner ∧
      (runner = some target ↔ Dominance.Chain 0 (Dominance.above 0 idom) i target) := by
  obtain ⟨i', hclimb, -, hle, -, hcommon⟩ := climb_spec hplaced (b := target) hi hfuel
  refine ⟨some i', hclimb, ?_⟩
  rw [Option.some.injEq]
  constructor
  · intro heq
    exact ((hcommon target).mp ⟨heq ▸ .here _, .here _⟩).1
  · intro hchain
    have hback := ((hcommon target).mpr ⟨hchain, .here _⟩).1
    exact Nat.le_antisymm hle (Dominance.Chain.ord_le (placed_rooted hplaced) hback)

private theorem intersect_spec {fuel rounds i j : Nat} (hfuel : n ≤ fuel) (hi : (idom i).isSome = true)
    (hj : (idom j).isSome = true) (hrounds : i + j < rounds) :
    ∃ m, intersect fuel idom rounds (some i) (some j) = some (some m) ∧ (idom m).isSome = true ∧
      ∀ d, Dominance.Chain 0 (Dominance.above 0 idom) m d ↔
        Dominance.Chain 0 (Dominance.above 0 idom) i d ∧ Dominance.Chain 0 (Dominance.above 0 idom) j d := by
  have hbound : ∀ k, (idom k).isSome = true → k < fuel := by
    intro k hk
    obtain ⟨d, hd⟩ := Option.isSome_iff_exists.mp hk
    exact Nat.lt_of_lt_of_le (placed_up hplaced hd).1 hfuel
  induction rounds generalizing i j with
  | zero => exact absurd hrounds (Nat.not_lt_zero _)
  | succ rounds ih =>
    rw [intersect]
    by_cases heq : i = j
    · rw [if_pos (congrArg some heq)]
      refine ⟨i, rfl, hi, fun d => ?_⟩
      rw [heq]
      exact (and_self_iff).symm
    rw [if_neg fun h => heq (Option.some.inj h)]
    obtain ⟨i', hclimb, hsome, hle, hcase, hcommon⟩ := climb_spec hplaced (b := j) hi (hbound i hi)
    obtain ⟨j', hclimb', hsome', hle', hcase', hcommon'⟩ := climb_spec hplaced (b := i') hj (hbound j hj)
    -- One of the two walks has gone up.
    obtain ⟨m, hm, hmsome, hchain⟩ := ih hsome hsome' (by omega)
    rw [hclimb, Option.bind_some, hclimb', Option.bind_some]
    refine ⟨m, hm, hmsome, fun d => ?_⟩
    rw [hchain d, and_comm, hcommon' d, and_comm, hcommon d]

private theorem meet_pred_meets {fuel : Nat} (hfuel : n + n ≤ fuel) : Dominance.Meets 0 idom (meet_pred fuel idom) := by
  have htaken : ∀ p, (idom p).isSome = true → idom p ≠ none := by
    intro p hp hnone
    rw [hnone] at hp
    cases hp
  refine ⟨?_, ?_, ?_⟩
  · intro found p hp
    exact if_pos hp
  · intro p hp
    exact if_neg (htaken p hp)
  · intro d p hd hp
    obtain ⟨e, he⟩ := Option.isSome_iff_exists.mp hd
    obtain ⟨q, hq⟩ := Option.isSome_iff_exists.mp hp
    have hdn := (placed_up hplaced he).1
    have hpn := (placed_up hplaced hq).1
    have hle : n ≤ fuel := by omega
    have hrounds : d + p < fuel := by omega
    obtain ⟨m, hm, hmsome, hcommon⟩ := intersect_spec hplaced hle hd hp hrounds
    rw [meet_pred, if_neg (htaken p hp)]
    exact ⟨m, hm, hmsome, hcommon⟩

end Tree

def order_t.addrs (order : order_t) : List UInt64 := order.rpo.map BasicBlock.start

/-- The predecessors of a block by their places. -/
def order_t.pred_indices (order : order_t) (ri : Nat) : List Nat := (order.preds ri).filterMap order.find

/-- A reverse postorder of a function's flow graph. -/
structure order_t.Of (order : order_t) (func : Function) : Prop where
  spec : Dominance.Order (Edge func) func.entry order.addrs
  find : ∀ x i, order.find x = some i ↔ order.addrs[i]? = some x
  blocks : ∀ bb ∈ order.rpo, func.blocks.find bb.start = some bb

private theorem Walked.order_of {func : Function} {s : walk_t} (h : Walked func s) (hstack : s.stack = []) :
    s.order.Of func := by
  have hrpo := h.rpo hstack
  refine ⟨hrpo, ?_, ?_⟩
  · intro x i
    rw [h.order_find hstack x]
    show (if x ∈ s.order.addrs then some (s.order.addrs.idxOf x) else none) = some i ↔ s.order.addrs[i]? = some x
    by_cases hx : x ∈ s.order.addrs
    · rw [if_pos hx, Option.some.injEq]
      constructor
      · intro heq
        rw [← heq]
        exact hrpo.getElem?_idxOf ((hrpo.mem x).mp hx)
      · exact hrpo.idxOf_eq
    · rw [if_neg hx]
      exact iff_of_false nofun fun hi => hx (List.mem_of_getElem? hi)
  · intro bb hbb
    exact h.blocks bb (List.mem_reverse.mp hbb)

private theorem getElem?_addrs {order : order_t} {i : Nat} {x : UInt64} :
    order.addrs[i]? = some x ↔ ∃ bb, order.rpo[i]? = some bb ∧ bb.start = x := by
  rw [order_t.addrs, List.getElem?_map]
  exact Option.map_eq_some_iff

private theorem Linked.mem_preds {func : Function} (hlinked : Linked func) {bb : BasicBlock}
    (hbb : func.blocks.find bb.start = some bb) {p : UInt64} : p ∈ bb.preds ↔ Edge func p bb.start := by
  rw [hlinked bb (Keyed.Map.find_eq_some.mp hbb).1 p]
  constructor
  · intro hp
    obtain ⟨pb, hpb, hstart, hsucc⟩ := hp
    exact ⟨pb, Keyed.Map.find_eq_some.mpr ⟨hpb, hstart⟩, hsucc, by rw [hbb]; rfl⟩
  · intro hedge
    obtain ⟨pb, hpb, hsucc, -⟩ := hedge
    obtain ⟨hmem, hstart⟩ := Keyed.Map.find_eq_some.mp hpb
    exact ⟨pb, hmem, hstart, hsucc⟩

section Dominators

variable {func : Function} {order : order_t} (h : order.Of func)

include h

private theorem order_t.Of.isSome {x : UInt64} :
    (order.rpo_index x).isSome = true ↔ Dominance.Reachable (Edge func) func.entry x := by
  have hfind : (order.rpo_index x).isSome = (order.find x).isSome := Option.isSome_map.symm
  rw [hfind, Option.isSome_iff_exists, ← h.spec.mem x, List.mem_iff_getElem?]
  exact exists_congr fun i => h.find x i

private theorem order_t.Of.length_le : order.addrs.length ≤ func.blocks.list.length := by
  have hmap : (func.blocks.list.map BasicBlock.start).length = func.blocks.list.length := List.length_map _
  rw [← hmap]
  refine (List.subperm_of_subset h.spec.nodup ?_).length_le
  intro x hx
  obtain ⟨bb, hbb, rfl⟩ := List.mem_map.mp hx
  exact List.mem_map_of_mem (Keyed.Map.find_eq_some.mp (h.blocks bb hbb)).1

private theorem order_t.Of.edge_iff {i : Nat} {bb : BasicBlock} (hbb : order.rpo[i]? = some bb) {y : UInt64} :
    Edge func bb.start y ↔ y ∈ bb.succs ∧ (func.blocks.find y).isSome = true := by
  have hfind := h.blocks bb (List.mem_of_getElem? hbb)
  constructor
  · intro hedge
    obtain ⟨bb', hfind', hsucc⟩ := hedge
    rw [hfind, Option.some.injEq] at hfind'
    exact hfind' ▸ hsucc
  · intro hsucc
    exact ⟨bb, hfind, hsucc⟩

private theorem order_t.Of.listed (hlinked : Linked func) :
    Dominance.Listed (Dominance.Numbered (Edge func) order.addrs) order.pred_indices
      (List.range order.addrs.length) := by
  intro j hj i _
  rw [List.mem_range] at hj
  obtain ⟨bb, hbb, hstart⟩ := getElem?_addrs.mp (List.getElem?_eq_getElem hj)
  have hfind := h.blocks bb (List.mem_of_getElem? hbb)
  rw [order_t.pred_indices, order_t.preds, hbb, List.mem_filterMap]
  constructor
  · intro hi
    obtain ⟨p, hp, hpi⟩ := hi
    exact ⟨p, bb.start, (h.find p i).mp hpi, getElem?_addrs.mpr ⟨bb, hbb, rfl⟩, (hlinked.mem_preds hfind).mp hp⟩
  · intro hedge
    obtain ⟨p, y, hp, hy, hpy⟩ := hedge
    rw [List.getElem?_eq_getElem hj, Option.some.injEq] at hy
    rw [← hy, ← hstart] at hpy
    exact ⟨p, (hlinked.mem_preds hfind).mpr hpy, (h.find p i).mpr hp⟩

omit h in
private theorem new_idom_eq (fuel : Nat) (order : order_t) (idom : Nat → Option Nat) (ri : Nat) :
    new_idom fuel order idom ri = (order.pred_indices ri).foldlM (meet_pred fuel idom) none := by
  rw [new_idom, order_t.pred_indices, List.foldlM_filterMap]
  congr 1
  funext found pred
  cases order.find pred with
  | none => rfl
  | some index => rfl

/-- The fixed point is found, and what it finds above the places of a block are the places of its dominators. -/
theorem order_t.Of.dominators (hlinked : Linked func) {fuel : Nat}
    (hfuel : order.addrs.length * order.addrs.length + order.addrs.length + order.addrs.length + 2 ≤ fuel) :
    ∃ idom, dominators fuel order = some idom ∧
      Dominance.Placed 0 (List.range order.addrs.length) idom ∧
      (∀ i < order.addrs.length, (idom i).isSome = true) ∧
      ∀ i j x y, order.addrs[i]? = some x → order.addrs[j]? = some y →
        (Dominance.Dominates (Edge func) func.entry x y ↔ Dominance.Chain 0 (Dominance.above 0 idom) j i) := by
  have hnumbered := h.spec.numbered
  have hfinds : Dominance.Finds 0 order.pred_indices (List.range order.addrs.length) (new_idom fuel order) := by
    intro idom hplaced i _
    rw [new_idom_eq]
    have htwice : order.addrs.length + order.addrs.length ≤ fuel := by omega
    exact (meet_pred_meets hplaced htwice).fold (order.pred_indices i)
  have hsquare : (List.range order.addrs.length).length * (List.range order.addrs.length).length + 2 ≤ fuel := by
    rw [List.length_range]
    omega
  obtain ⟨idom, hidom, hsettled⟩ := Dominance.iterate_planted hnumbered (h.listed hlinked) hfinds hsquare
  have hlength : order.addrs.length = order.rpo.length := List.length_map ..
  refine ⟨idom, ?_, hsettled.placed, ?_, ?_⟩
  · rw [Analyzer.dominators, ← hlength]
    exact hidom
  · intro i hi
    exact hsettled.all i (List.mem_range.mpr hi)
  · intro i j x y hi hj
    rw [← h.spec.dominates_numbered hi hj]
    refine hsettled.dominates_iff hnumbered (h.listed hlinked) ?_
    exact h.spec.reachable_numbered.mpr (List.getElem?_eq_some_iff.mp hj).1

end Dominators

section Body

variable {func : Function} {order : order_t}

/-- The blocks that are not in the loop yet. -/
def order_t.missing (order : order_t) (loop_blocks : List UInt64) : Nat :=
  order.addrs.total fun x => if x ∈ loop_blocks then 0 else 1

private theorem missing_le (order : order_t) (loop_blocks : List UInt64) : order.missing loop_blocks ≤ order.addrs.length := by
  have hle : ∀ x ∈ order.addrs, (if x ∈ loop_blocks then 0 else 1) ≤ 1 := by
    intro x _
    split
    · exact Nat.zero_le _
    · exact Nat.le_refl _
  have htotal := List.total_le hle
  rw [Nat.mul_one] at htotal
  exact htotal

/-- The predecessors of a block that go into the loop go into the worklist, too. -/
theorem push_preds_spec (h : order.Of func) (preds worklist loop_blocks : List UInt64) :
    ∃ fresh, preds.foldl (push_pred_block order) (worklist, loop_blocks) =
        (worklist ++ fresh, loop_blocks ++ fresh) ∧
      (∀ x ∈ fresh, x ∈ preds ∧ Dominance.Reachable (Edge func) func.entry x ∧ x ∉ loop_blocks) ∧
      (∀ p ∈ preds, Dominance.Reachable (Edge func) func.entry p → p ∈ loop_blocks ++ fresh) ∧
      order.missing (loop_blocks ++ fresh) + fresh.length ≤ order.missing loop_blocks := by
  induction preds generalizing worklist loop_blocks with
  | nil =>
    refine ⟨[], ?_, ?_, ?_, ?_⟩
    · simp
    · simp
    · simp
    · simp
  | cons p preds ih =>
    rw [List.foldl_cons, push_pred_block]
    by_cases hp : (order.rpo_index p).isSome = true ∧ p ∉ loop_blocks
    · rw [if_pos hp]
      obtain ⟨fresh, hfold, hfresh, hall, hmissing⟩ := ih (worklist ++ [p]) (loop_blocks ++ [p])
      have hreach := h.isSome.mp hp.1
      have hassoc : ∀ l : List UInt64, l ++ [p] ++ fresh = l ++ p :: fresh := by
        intro l
        rw [List.append_assoc]
        rfl
      rw [hassoc] at hall hmissing
      refine ⟨p :: fresh, ?_, ?_, ?_, ?_⟩
      · rw [hfold, hassoc, hassoc]
      · intro x hx
        obtain rfl | hx := List.mem_cons.mp hx
        · exact ⟨List.mem_cons_self, hreach, hp.2⟩
        · obtain ⟨hpred, hreach', hnew⟩ := hfresh x hx
          exact ⟨List.mem_cons_of_mem _ hpred, hreach', fun hmem => hnew (List.mem_append_left _ hmem)⟩
      · intro q hq hqreach
        obtain rfl | hq := List.mem_cons.mp hq
        · exact List.mem_append_right _ List.mem_cons_self
        · exact hall q hq hqreach
      · have hless : order.missing (loop_blocks ++ [p]) + 1 ≤ order.missing loop_blocks := by
          apply List.total_add_le
          · intro x _
            by_cases hx : x ∈ loop_blocks
            · rw [if_pos hx, if_pos (List.mem_append_left _ hx)]
            · rw [if_neg hx]
              split
              · exact Nat.zero_le _
              · exact Nat.le_refl _
          · refine ⟨p, (h.spec.mem p).mpr hreach, ?_⟩
            rw [if_neg hp.2, if_pos (List.mem_append_right _ List.mem_cons_self)]
        rw [List.length_cons]
        omega
    · rw [if_neg hp]
      obtain ⟨fresh, hfold, hfresh, hall, hmissing⟩ := ih worklist loop_blocks
      refine ⟨fresh, hfold, ?_, ?_, hmissing⟩
      · intro x hx
        obtain ⟨hpred, hrest⟩ := hfresh x hx
        exact ⟨List.mem_cons_of_mem _ hpred, hrest⟩
      · intro q hq hqreach
        obtain rfl | hq := List.mem_cons.mp hq
        · have hmem := not_and.mp hp (h.isSome.mpr hqreach)
          exact List.mem_append_left _ (not_not.mp hmem)
        · exact hall q hq hqreach

/-- A body under way: what is not on the worklist any more has all its predecessors in the body, but for the header. -/
structure Gathered (func : Function) (header latch : UInt64) (worklist loop_blocks : List UInt64) : Prop where
  at_header : header ∈ loop_blocks
  at_latch : latch ∈ loop_blocks
  sound : ∀ x ∈ loop_blocks, Dominance.Loop (Edge func) func.entry header latch x
  listed : ∀ x ∈ worklist, x ∈ loop_blocks ∧ x ≠ header
  closed : ∀ x ∈ loop_blocks, x ≠ header → x ∉ worklist →
    ∀ p, Edge func p x → Dominance.Reachable (Edge func) func.entry p → p ∈ loop_blocks

private theorem Gathered.start (func : Function) (header latch : UInt64) :
    Gathered func header latch (if latch ≠ header then [latch] else [])
      (header :: if latch ≠ header then [latch] else []) := by
  by_cases hne : latch ≠ header
  · rw [if_pos hne]
    refine ⟨List.mem_cons_self, List.mem_cons_of_mem _ List.mem_cons_self, ?_, ?_, ?_⟩
    · intro x hx
      obtain rfl | hx := List.mem_cons.mp hx
      · exact .header
      · exact List.mem_singleton.mp hx ▸ .latch
    · intro x hx
      rw [List.mem_singleton.mp hx]
      exact ⟨List.mem_cons_of_mem _ List.mem_cons_self, hne⟩
    · intro x hx hxne hxout
      exact absurd ((List.mem_cons.mp hx).resolve_left hxne) hxout
  · rw [if_neg hne]
    have heq : latch = header := not_not.mp hne
    refine ⟨List.mem_cons_self, heq ▸ List.mem_cons_self, ?_, ?_, ?_⟩
    · intro x hx
      rw [List.mem_singleton.mp hx]
      exact .header
    · intro x hx
      exact absurd hx List.not_mem_nil
    · intro x hx hxne
      exact absurd (List.mem_singleton.mp hx) hxne

private theorem Gathered.step (hlinked : Linked func) (h : order.Of func) {header latch current : UInt64}
    {worklist loop_blocks : List UInt64} (hg : Gathered func header latch (current :: worklist) loop_blocks)
    {block : BasicBlock} (hfind : func.blocks.find current = some block) :
    ∃ worklist' loop_blocks', block.preds.foldl (push_pred_block order) (worklist, loop_blocks) =
        (worklist', loop_blocks') ∧ Gathered func header latch worklist' loop_blocks' ∧
      worklist'.length + order.missing loop_blocks' < (current :: worklist).length + order.missing loop_blocks := by
  obtain ⟨hstart, hne⟩ := hg.listed current List.mem_cons_self
  have hcurrent : block.start = current := (Keyed.Map.find_eq_some.mp hfind).2
  have hpreds : ∀ p, p ∈ block.preds ↔ Edge func p current := by
    intro p
    rw [hlinked.mem_preds (by rw [hcurrent]; exact hfind), hcurrent]
  obtain ⟨fresh, hfold, hfresh, hall, hmissing⟩ := push_preds_spec h block.preds worklist loop_blocks
  refine ⟨_, _, hfold, ⟨List.mem_append_left _ hg.at_header, List.mem_append_left _ hg.at_latch, ?_, ?_, ?_⟩, ?_⟩
  · intro x hx
    obtain hx | hx := List.mem_append.mp hx
    · exact hg.sound x hx
    · obtain ⟨hpred, hreach, -⟩ := hfresh x hx
      exact .pred (hg.sound current hstart) hne ((hpreds x).mp hpred) hreach
  · intro x hx
    obtain hx | hx := List.mem_append.mp hx
    · obtain ⟨hmem, hx'⟩ := hg.listed x (List.mem_cons_of_mem _ hx)
      exact ⟨List.mem_append_left _ hmem, hx'⟩
    · refine ⟨List.mem_append_right _ hx, ?_⟩
      intro heq
      exact (hfresh x hx).2.2 (heq ▸ hg.at_header)
  · intro x hx hxne hxout p hedge hreach
    obtain ⟨hxwork, hxfresh⟩ := not_or.mp fun hmem => hxout (List.mem_append.mpr hmem)
    have hxold := (List.mem_append.mp hx).resolve_right hxfresh
    by_cases heq : x = current
    · exact hall p ((hpreds p).mpr (heq ▸ hedge)) hreach
    · refine List.mem_append_left _ (hg.closed x hxold hxne ?_ p hedge hreach)
      exact List.not_mem_cons_of_ne_of_not_mem heq hxwork
  · rw [List.length_append, List.length_cons]
    omega

/-- The worklist comes to its end with the natural loop. -/
theorem loop_body_spec (hlinked : Linked func) (h : order.Of func) {header latch : UInt64} {fuel : Nat}
    {worklist loop_blocks : List UInt64} (hg : Gathered func header latch worklist loop_blocks)
    (hblocks : ∀ x, Dominance.Loop (Edge func) func.entry header latch x → (func.blocks.find x).isSome = true)
    (hfuel : worklist.length + order.missing loop_blocks < fuel) :
    ∃ body, loop_body func order fuel worklist loop_blocks = some body ∧
      ∀ x, x ∈ body ↔ Dominance.Loop (Edge func) func.entry header latch x := by
  induction fuel generalizing worklist loop_blocks with
  | zero => exact absurd hfuel (Nat.not_lt_zero _)
  | succ fuel ih =>
    cases worklist with
    | nil =>
      refine ⟨loop_blocks, rfl, fun x => ⟨hg.sound x, ?_⟩⟩
      intro hloop
      induction hloop with
      | header => exact hg.at_header
      | latch => exact hg.at_latch
      | pred _ hne hedge hreach ih => exact hg.closed _ ih hne List.not_mem_nil _ hedge hreach
    | cons current worklist =>
      obtain ⟨hmem, -⟩ := hg.listed current List.mem_cons_self
      obtain ⟨block, hfind⟩ := Option.isSome_iff_exists.mp (hblocks current (hg.sound current hmem))
      obtain ⟨worklist', loop_blocks', hfold, hg', hless⟩ := hg.step hlinked h hfind
      rw [loop_body, hfind, Option.bind_some, hfold]
      exact ih hg' (Nat.lt_of_lt_of_le hless (Nat.le_of_lt_succ hfuel))

end Body

/-- What is recorded of a loop's register: one that an instruction in the loop counts up, or 0 where none does. -/
def Counts (func : Function) (loop : LoopInfo) : Prop :=
  (∃ x bb, Dominance.Loop (Edge func) func.entry loop.header loop.back_edge_src x ∧ func.blocks.find x = some bb ∧
      ∃ insn ∈ bb.insns, counted insn = some loop.induction_reg) ∨
    loop.induction_reg = 0 ∧
      ∀ x bb, Dominance.Loop (Edge func) func.entry loop.header loop.back_edge_src x → func.blocks.find x = some bb →
        ∀ insn ∈ bb.insns, counted insn = none

private theorem induction_reg_spec {func : Function} {walked : List UInt64}
    (hblocks : ∀ x ∈ walked, (func.blocks.find x).isSome = true) :
    ∃ reg, induction_reg func walked = some reg ∧
      ((∃ x ∈ walked, ∃ bb, func.blocks.find x = some bb ∧ ∃ insn ∈ bb.insns, counted insn = some reg) ∨
        reg = 0 ∧ ∀ x ∈ walked, ∀ bb, func.blocks.find x = some bb → ∀ insn ∈ bb.insns, counted insn = none) := by
  induction walked with
  | nil => exact ⟨0, rfl, Or.inr ⟨rfl, fun x hx => absurd hx List.not_mem_nil⟩⟩
  | cons x rest ih =>
    obtain ⟨block, hfind⟩ := Option.isSome_iff_exists.mp (hblocks x List.mem_cons_self)
    rw [induction_reg, hfind, Option.bind_some]
    cases hfound : block.insns.findSome? counted with
    | some reg =>
      obtain ⟨insn, hinsn, hreg⟩ := List.exists_of_findSome?_eq_some hfound
      exact ⟨reg, rfl, Or.inl ⟨x, List.mem_cons_self, block, hfind, insn, hinsn, hreg⟩⟩
    | none =>
      obtain ⟨reg, hreg, hcase⟩ := ih fun y hy => hblocks y (List.mem_cons_of_mem _ hy)
      refine ⟨reg, hreg, ?_⟩
      obtain ⟨y, hy, hcounted⟩ | ⟨hzero, hnone⟩ := hcase
      · exact Or.inl ⟨y, List.mem_cons_of_mem _ hy, hcounted⟩
      · refine Or.inr ⟨hzero, ?_⟩
        intro y hy bb hbb insn hinsn
        obtain rfl | hy := List.mem_cons.mp hy
        · rw [hfind, Option.some.injEq] at hbb
          exact List.findSome?_eq_none_iff.mp hfound insn (hbb ▸ hinsn)
        · exact hnone y hy bb hbb insn hinsn

section Edges

variable {func : Function} {order : order_t} {idom : Nat → Option Nat} {fuel : Nat}
  {walked : List UInt64 → List UInt64}

/-- An edge whose target dominates its source. -/
def Back (func : Function) (latch header : UInt64) : Prop :=
  Dominance.Reachable (Edge func) func.entry latch ∧ Edge func latch header ∧
    Dominance.Dominates (Edge func) func.entry header latch

/-- The body of a loop and the register that it counts up. -/
theorem natural_loop_spec (hlinked : Linked func) (h : order.Of func) (hwalked : ∀ l, (walked l).Perm l)
    {header latch : UInt64} (hheader : (func.blocks.find header).isSome = true)
    (hlatch : (func.blocks.find latch).isSome = true) (hfuel : order.addrs.length + 2 ≤ fuel) :
    ∃ body reg, loop_body func order fuel (if latch ≠ header then [latch] else [])
        (header :: if latch ≠ header then [latch] else []) = some body ∧
      induction_reg func (walked body) = some reg ∧
      Counts func { header, back_edge_src := latch, induction_reg := reg } := by
  have hinside : ∀ x, Dominance.Loop (Edge func) func.entry header latch x →
      (func.blocks.find x).isSome = true := by
    intro x hloop
    cases hloop with
    | header => exact hheader
    | latch => exact hlatch
    | pred _ _ hedge _ =>
      obtain ⟨pb, hpb, -⟩ := hedge
      rw [hpb]
      rfl
  have hwork : (if latch ≠ header then [latch] else []).length +
      order.missing (header :: if latch ≠ header then [latch] else []) < fuel := by
    have hone : (if latch ≠ header then [latch] else []).length ≤ 1 := by split <;> simp
    have hmissing := missing_le order (header :: if latch ≠ header then [latch] else [])
    omega
  obtain ⟨body, hbody, hmem⟩ := loop_body_spec hlinked h (.start func header latch) hinside hwork
  have hin : ∀ x, x ∈ walked body ↔ Dominance.Loop (Edge func) func.entry header latch x := by
    intro x
    rw [(hwalked body).mem_iff, hmem]
  obtain ⟨reg, hreg, hcounts⟩ := induction_reg_spec fun x hx => hinside x ((hin x).mp hx)
  refine ⟨body, reg, hbody, hreg, ?_⟩
  obtain ⟨x, hx, bb, hbb, hinsn⟩ | ⟨hzero, hnone⟩ := hcounts
  · exact Or.inl ⟨x, bb, (hin x).mp hx, hbb, hinsn⟩
  · exact Or.inr ⟨hzero, fun x bb hloop => hnone x ((hin x).mpr hloop) bb⟩

private theorem edge_loop_spec (hlinked : Linked func) (h : order.Of func) (hwalked : ∀ l, (walked l).Perm l)
    (hplaced : Dominance.Placed 0 (List.range order.addrs.length) idom)
    (hall : ∀ i < order.addrs.length, (idom i).isSome = true)
    (hdom : ∀ i j x y, order.addrs[i]? = some x → order.addrs[j]? = some y →
      (Dominance.Dominates (Edge func) func.entry x y ↔ Dominance.Chain 0 (Dominance.above 0 idom) j i))
    (hfuel : order.addrs.length + 2 ≤ fuel) {si : Nat} {bb : BasicBlock} (hbb : order.rpo[si]? = some bb)
    {succ : UInt64} (hsucc : succ ∈ bb.succs) :
    ∃ found, edge_loop fuel walked func order idom si bb succ = some found ∧
      (found.isSome = true ↔ Back func bb.start succ) ∧
      ∀ loop, found = some loop → loop.header = succ ∧ loop.back_edge_src = bb.start ∧ Counts func loop := by
  have hsi : order.addrs[si]? = some bb.start := getElem?_addrs.mpr ⟨bb, hbb, rfl⟩
  have hlt := (List.getElem?_eq_some_iff.mp hsi).1
  have hlatch := h.spec.reachable_of_getElem? hsi
  rw [edge_loop]
  cases hfind : order.find succ with
  | none =>
    refine ⟨none, rfl, iff_of_false Bool.false_ne_true ?_, fun loop hloop => ?_⟩
    · intro hback
      have hreach := h.spec.getElem?_idxOf (hlatch.step hback.2.1)
      rw [← h.find, hfind] at hreach
      cases hreach
    · cases hloop
  | some target =>
    have htarget := (h.find succ target).mp hfind
    obtain ⟨tb, htb, hstart⟩ := getElem?_addrs.mp htarget
    have hsome : (func.blocks.find succ).isSome = true := by
      rw [← hstart, h.blocks tb (List.mem_of_getElem? htb)]
      rfl
    have hedge : Edge func bb.start succ := (h.edge_iff hbb).mpr ⟨hsucc, hsome⟩
    have hsilt : si < fuel := by omega
    obtain ⟨runner, hclimb, hrunner⟩ := climb_target hplaced target (hall si hlt) hsilt
    simp only
    rw [hclimb, Option.bind_some]
    by_cases hhit : runner = some target
    · rw [if_neg (not_not.mpr hhit)]
      have hdominates := (hdom target si succ bb.start htarget hsi).mpr (hrunner.mp hhit)
      have hlatchsome : (func.blocks.find bb.start).isSome = true := by
        rw [h.blocks bb (List.mem_of_getElem? hbb)]
        rfl
      obtain ⟨body, reg, hbody, hreg, hcounts⟩ := natural_loop_spec hlinked h hwalked hsome hlatchsome hfuel
      rw [hbody, Option.bind_some, hreg, Option.map_some]
      refine ⟨_, rfl, iff_of_true rfl ⟨hlatch, hedge, hdominates⟩, ?_⟩
      intro loop hloop
      rw [← Option.some.inj hloop]
      exact ⟨rfl, rfl, hcounts⟩
    · rw [if_pos hhit]
      refine ⟨none, rfl, iff_of_false Bool.false_ne_true ?_, fun loop hloop => ?_⟩
      · intro hback
        exact hhit (hrunner.mpr ((hdom target si succ bb.start htarget hsi).mp hback.2.2))
      · cases hloop

private theorem exists_edge_cons {bb : BasicBlock} {si : Nat} {succ header latch : UInt64}
    {rest : List (BasicBlock × Nat × UInt64)} :
    (∃ bb' si', (bb', si', header) ∈ (bb, si, succ) :: rest ∧ bb'.start = latch ∧ Back func latch header) ↔
      (succ = header ∧ bb.start = latch ∧ Back func bb.start succ) ∨
        ∃ bb' si', (bb', si', header) ∈ rest ∧ bb'.start = latch ∧ Back func latch header := by
  constructor
  · intro h
    obtain ⟨bb', si', hin, hstart, hback⟩ := h
    obtain heq | hin := List.mem_cons.mp hin
    · rw [Prod.mk.injEq, Prod.mk.injEq] at heq
      obtain ⟨rfl, -, rfl⟩ := heq
      exact Or.inl ⟨rfl, hstart, hstart ▸ hback⟩
    · exact Or.inr ⟨bb', si', hin, hstart, hback⟩
  · intro h
    obtain ⟨rfl, rfl, hback⟩ | ⟨bb', si', hin, hrest⟩ := h
    · exact ⟨bb, si, List.mem_cons_self, rfl, hback⟩
    · exact ⟨bb', si', List.mem_cons_of_mem _ hin, hrest⟩

private theorem edge_loops_spec {edges : List (BasicBlock × Nat × UInt64)}
    (hedges : ∀ bb si succ, (bb, si, succ) ∈ edges →
      ∃ found, edge_loop fuel walked func order idom si bb succ = some found ∧
        (found.isSome = true ↔ Back func bb.start succ) ∧
        ∀ loop, found = some loop → loop.header = succ ∧ loop.back_edge_src = bb.start ∧ Counts func loop) :
    ∃ loops, edge_loops fuel walked func order idom edges = some loops ∧
      (∀ loop ∈ loops, Counts func loop) ∧
      (∀ header latch, (∃ loop ∈ loops, loop.header = header ∧ loop.back_edge_src = latch) ↔
        ∃ bb si, (bb, si, header) ∈ edges ∧ bb.start = latch ∧ Back func latch header) ∧
      (loops.map fun loop => (loop.back_edge_src, loop.header)).Sublist (edges.map fun e => (e.1.start, e.2.2)) := by
  induction edges with
  | nil =>
    refine ⟨[], rfl, ?_, ?_, List.nil_sublist _⟩
    · intro loop hloop
      exact absurd hloop List.not_mem_nil
    · simp
  | cons e rest ih =>
    obtain ⟨bb, si, succ⟩ := e
    obtain ⟨found, hfound, hback, hloop⟩ := hedges bb si succ List.mem_cons_self
    obtain ⟨loops, hloops, hcounts, hmem, hsub⟩ := ih fun bb' si' succ' h =>
      hedges bb' si' succ' (List.mem_cons_of_mem _ h)
    rw [edge_loops, hfound, Option.bind_some, hloops, Option.map_some]
    cases found with
    | none =>
      refine ⟨_, rfl, hcounts, ?_, hsub.cons _⟩
      intro header latch
      rw [Option.toList_none, List.nil_append, hmem, exists_edge_cons]
      refine (or_iff_right ?_).symm
      intro hedge
      exact absurd (hback.mpr hedge.2.2) Bool.false_ne_true
    | some loop =>
      obtain ⟨hheader, hlatch, hcount⟩ := hloop loop rfl
      have hb : Back func bb.start succ := hback.mp rfl
      refine ⟨_, rfl, ?_, ?_, ?_⟩
      · intro loop' hloop'
        obtain rfl | hloop' := List.mem_cons.mp hloop'
        · exact hcount
        · exact hcounts loop' hloop'
      · intro header latch
        rw [Option.toList_some, List.singleton_append, List.exists_mem_cons_iff, hmem, hheader, hlatch, exists_edge_cons]
        exact or_congr_left (and_congr_right fun _ => (and_iff_left hb).symm)
      · rw [Option.toList_some, List.singleton_append, List.map_cons, List.map_cons, hheader, hlatch]
        exact hsub.cons_cons _

end Edges

/-- The rounds that suffice for all loops of `detect_loops`. -/
def rounds (func : Function) : Nat :=
  func.blocks.list.length * func.blocks.list.length + func.blocks.list.length + func.blocks.list.length + 2 +
    func.blocks.list.total fun bb => bb.succs.length + 1

private theorem mem_edges {order : order_t} {bb : BasicBlock} {si : Nat} {succ : UInt64} :
    (bb, si, succ) ∈ order.edges ↔ order.rpo[si]? = some bb ∧ succ ∈ bb.succs := by
  rw [order_t.edges, List.mem_flatMap]
  constructor
  · intro h
    obtain ⟨b, hb, hmem⟩ := h
    obtain ⟨s, hs, heq⟩ := List.mem_map.mp hmem
    rw [Prod.mk.injEq, Prod.mk.injEq] at heq
    rw [← heq.1, ← heq.2.1, ← heq.2.2]
    exact ⟨List.mk_mem_zipIdx_iff_getElem?.mp hb, hs⟩
  · intro h
    exact ⟨(bb, si), List.mk_mem_zipIdx_iff_getElem?.mpr h.1, List.mem_map.mpr ⟨succ, h.2, rfl⟩⟩

private theorem order_t.Of.edges_nodup {order : order_t} {func : Function} (h : order.Of func)
    (hsuccs : ∀ bb ∈ func.blocks.list, bb.succs.Nodup) : (order.edges.map fun e => (e.1.start, e.2.2)).Nodup := by
  have hpairs : (order.edges.map fun e => (e.1.start, e.2.2)) =
      order.rpo.flatMap fun bb => bb.succs.map fun succ => (bb.start, succ) := by
    rw [order_t.edges, List.map_flatMap]
    conv => rhs; rw [← List.zipIdx_map_fst 0 order.rpo, List.flatMap_map]
    simp only [List.map_map]
    rfl
  rw [hpairs, List.nodup_flatMap]
  refine ⟨?_, ?_⟩
  · intro bb hbb
    exact (hsuccs bb (Keyed.Map.find_eq_some.mp (h.blocks bb hbb)).1).map fun _ _ heq => (Prod.mk.inj heq).2
  · have hdistinct : order.rpo.Pairwise fun bb bb' => bb.start ≠ bb'.start := List.pairwise_map.mp h.spec.nodup
    refine hdistinct.imp ?_
    intro bb bb' hne e he he'
    obtain ⟨_, _, rfl⟩ := List.mem_map.mp he
    obtain ⟨_, _, heq⟩ := List.mem_map.mp he'
    exact hne (Prod.mk.inj heq).1.symm

/-- `detect_loops` ends, and it records the back edges of the flow graph: the edges whose target dominates their
source, each once where no block lists a successor twice. The register of a loop is one that its body counts up. -/
theorem detect_loops_exact {func : Function} (hlinked : Linked func)
    (hentry : (func.blocks.find func.entry).isSome = true) {walked : List UInt64 → List UInt64}
    (hwalked : ∀ l, (walked l).Perm l) {fuel : Nat} (hfuel : rounds func ≤ fuel) :
    ∃ loops, detect_loops walked fuel func = some { func with loops } ∧
      (∀ header latch, (∃ loop ∈ loops, loop.header = header ∧ loop.back_edge_src = latch) ↔ Back func latch header) ∧
      (∀ loop ∈ loops, Counts func loop) ∧
      ((∀ bb ∈ func.blocks.list, bb.succs.Nodup) →
        (loops.map fun loop => (loop.back_edge_src, loop.header)).Nodup) := by
  obtain ⟨block, hblock⟩ := Option.isSome_iff_exists.mp hentry
  rw [rounds] at hfuel
  have hwork := work_start hblock
  obtain ⟨s, hs, hdone, hempty⟩ := walk_spec (.start hblock) (by omega : (walk_t.start func block).work func < fuel)
  have h := hdone.order_of hempty
  have hlength := h.length_le
  have hsquare := Nat.mul_le_mul hlength hlength
  obtain ⟨idom, hidom, hplaced, hall, hdom⟩ := h.dominators hlinked (by omega : _ ≤ fuel)
  have hbody : s.order.addrs.length + 2 ≤ fuel := by omega
  have hedges := fun bb si succ (he : (bb, si, succ) ∈ s.order.edges) =>
    edge_loop_spec hlinked h hwalked hplaced hall hdom hbody (mem_edges.mp he).1 (mem_edges.mp he).2
  obtain ⟨loops, hloops, hcounts, hmem, hsub⟩ := edge_loops_spec hedges
  refine ⟨loops, ?_, ?_, hcounts, ?_⟩
  · rw [detect_loops, hblock, Option.bind_some]
    rw [hs, Option.bind_some, hidom, Option.bind_some, hloops]
    rfl
  · intro header latch
    rw [hmem]
    constructor
    · intro hback
      obtain ⟨bb, si, -, -, hback⟩ := hback
      exact hback
    · intro hback
      have hreach := hback.1
      have hedge := hback.2.1
      obtain ⟨bb, hbb, hlatch⟩ := getElem?_addrs.mp (h.spec.getElem?_idxOf hreach)
      rw [← hlatch] at hedge
      exact ⟨bb, _, mem_edges.mpr ⟨hbb, ((h.edge_iff hbb).mp hedge).1⟩, hlatch, hback⟩
  · intro hsuccs
    exact hsub.nodup (h.edges_nodup hsuccs)

/-- The function that counts up, with its flow graph. -/
def count_up_func : Function where
  entry := 0x10
  block_addrs := [0x10, 0x14, 0x17, 0x19]
  blocks := {
    list := [
      { start := 0x10, «end» := 0x14, insns := count_up.insns.list.take 2, succs := [0x14] },
      { start := 0x14, «end» := 0x17, insns := (count_up.insns.list.drop 2).take 2, succs := [0x17, 0x19],
        preds := [0x10, 0x17] },
      { start := 0x17, «end» := 0x19, insns := (count_up.insns.list.drop 4).take 1, succs := [0x14], preds := [0x14] },
      { start := 0x19, «end» := 0x1A, insns := count_up.insns.list.drop 5, preds := [0x14] }]
    distinct := by decide }
  analyzed := true

private theorem count_up_linked : Linked count_up_func := by
  intro bb hbb p
  simp only [count_up_func, List.mem_cons, List.not_mem_nil, or_false] at hbb
  obtain rfl | rfl | rfl | rfl := hbb
  · simp [count_up_func]
  · simp [count_up_func, eq_comm]
  · simp [count_up_func, eq_comm]
  · simp [count_up_func, eq_comm]

theorem count_up_loops :
    ∃ loops, detect_loops id 40 count_up_func = some { count_up_func with loops } ∧
      (∀ header latch, (∃ loop ∈ loops, loop.header = header ∧ loop.back_edge_src = latch) ↔
        Back count_up_func latch header) ∧
      (∀ loop ∈ loops, Counts count_up_func loop) ∧
      ((∀ bb ∈ count_up_func.blocks.list, bb.succs.Nodup) →
        (loops.map fun loop => (loop.back_edge_src, loop.header)).Nodup) :=
  detect_loops_exact count_up_linked (by decide) (fun l => List.Perm.refl l) (by decide)

example : (detect_loops id 40 count_up_func).map Function.loops =
    some [{ header := 0x14, back_edge_src := 0x17, induction_reg := 7 }] := by
  decide

end Analyzer

end hype
