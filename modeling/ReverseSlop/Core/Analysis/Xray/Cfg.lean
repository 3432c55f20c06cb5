import Mathlib.Algebra.GroupWithZero.Nat
import Mathlib.Algebra.Order.BigOperators.Group.List
import ReverseSlop.Core.Disasm.BinaryState
import ReverseSlop.Library.Sorted

namespace slop.core.analysis.xray

open disasm (insn_t engine_t pe_image_t)

/-- A function of the index, which has them in the order of their addresses. -/
structure function_t where
  va : UInt64
  size : UInt64

/-- An image with its decoder, which gives an instruction the address that it was asked for. -/
structure image_ref_t where
  pe : pe_image_t
  file : List UInt8
  base : UInt64
  eng : engine_t
  fns : Option (List function_t) := none
  placed : ∀ va buf insn, eng.decode va buf = some insn → insn.va = va

/-- The bytes of the file that are at an address, if they are all there. -/
def read_img (img : image_ref_t) (va : UInt64) (len : Nat) : Option (List UInt8) :=
  if va < img.base then none
  else
    match img.pe.rva_to_offset (va - img.base).toUInt32 with
    | none => none
    | some off => if off + len > img.file.length then none else some ((img.file.drop off).take len)

/-- The end of the indexed function at an address, or zero. -/
def function_bound (img : image_ref_t) (va : UInt64) : UInt64 :=
  match img.fns with
  | none => 0
  | some fns =>
    if va < img.base then 0
    else
      match (fns.takeWhile fun f => f.va ≤ va).getLast? with
      | none => 0
      | some f => if f.size ≠ 0 ∧ va ≥ f.va ∧ va < f.va + f.size then f.va + f.size else 0

def decode_range (img : image_ref_t) (end_va : UInt64) : Nat → UInt64 → List insn_t
  | 0, _ => []
  | max + 1, cur =>
    if end_va ≠ 0 ∧ cur ≥ end_va then []
    else
      match read_img img cur 16 with
      | none => []
      | some buf =>
        match img.eng.decode cur buf with
        | none => []
        | some insn =>
          if insn.length = 0 then []
          else insn :: decode_range img end_va max (cur + insn.length.toUInt64)

/-- An address of a block is a number. -/
structure block_t where
  start : Nat
  stop : Nat
  instructions : Nat := 0
  successors : List Nat := []
  deriving DecidableEq

structure cfg_result_t where
  ok : Bool := false
  error : String := ""
  blocks : List block_t := []
  edge_count : Nat := 0
  back_edges : Nat := 0
  cyclomatic : Nat := 0
  truncated : Bool := false

/-- The address behind an instruction. -/
def behind (insn : insn_t) : UInt64 := insn.va + insn.length.toUInt64

/-- What the scan of the instructions has found. -/
structure scan_t where
  heads : List Nat
  stop : UInt64
  edges : List (Nat × Nat) := []

/-- A direct jump, with the heads at its target and behind it. -/
def scan_t.branch (t : scan_t) (insn : insn_t) : scan_t :=
  let heads := SortedSet.insert insn.rel_target.toNat t.heads
  { t with
    heads := if behind insn < t.stop + 16 then SortedSet.insert (behind insn).toNat heads else heads
    edges := t.edges ++ [(insn.va.toNat, insn.rel_target.toNat)] }

def scan : List insn_t → scan_t → scan_t
  | [], t => t
  | insn :: insns, t =>
    let t := { t with stop := behind insn }
    if insn.flow = .ret ∨ insn.flow = .call then scan insns t
    else if insn.has_rel_target then scan insns (t.branch insn)
    else if insn.flow = .jmp then t
    else scan insns t

/-- The blocks between the heads, and whether there are too many, behind `n` blocks. -/
def cut (max_blocks stop : Nat) : Nat → List Nat → List block_t × Bool
  | _, [] => ([], false)
  | n, start :: heads =>
    let next := heads.headD stop
    if next ≤ start then cut max_blocks stop n heads
    else if n + 1 ≥ max_blocks then ([{ start, stop := next }], true)
    else
      let (blocks, truncated) := cut max_blocks stop (n + 1) heads
      ({ start, stop := next } :: blocks, truncated)

/-- The instructions that begin in a block, of those from its start on. -/
def block_t.insns (b : block_t) (insns : List insn_t) : List insn_t := insns.takeWhile fun insn => insn.va.toNat < b.stop

def count_instructions : List insn_t → List block_t → List block_t
  | _, [] => []
  | insns, b :: blocks =>
    let later := insns.dropWhile fun insn => insn.va.toNat < b.start
    { b with instructions := (b.insns later).length } :: count_instructions later blocks

def block_t.add_successor (b : block_t) (va : Nat) : block_t :=
  if va ∈ b.successors then b else { b with successors := b.successors ++ [va] }

/-- An edge belongs to the first block with its source. -/
def add_edge (blocks : List block_t) (edge : Nat × Nat) : List block_t :=
  match blocks.findIdx? fun b => b.start ≤ edge.1 && edge.1 < b.stop with
  | some i => blocks.modify i fun b => b.add_successor edge.2
  | none => blocks

/-- The successor of a block behind its last instruction, if that does not always jump. -/
def block_t.add_fall (starts : List Nat) (insns : List insn_t) (b : block_t) : block_t :=
  let last := ((b.insns (insns.dropWhile fun insn => insn.va.toNat < b.start)).getLast?).getD {}
  let fall := (behind last).toNat
  if last.flow ≠ .jcc ∧ last.flow ≠ .none then b
  else if (last.flow = .jcc ∨ fall = b.stop) ∧ fall ∈ starts then b.add_successor fall
  else b

def build_cfg (img : image_ref_t) (fn_va : UInt64) (max_blocks : Nat) : cfg_result_t :=
  let insns := decode_range img (function_bound img fn_va) 8192 fn_va
  if insns = [] then { error := "cannot decode function range" }
  else
    let t := scan insns { heads := [fn_va.toNat], stop := fn_va }
    let heads := t.heads.filter (· ≤ t.stop.toNat)
    let (blocks, truncated) := cut max_blocks t.stop.toNat 0 heads
    let blocks := t.edges.foldl add_edge (count_instructions insns blocks)
    let blocks := blocks.map (block_t.add_fall (blocks.map block_t.start) insns)
    let edge_count := (blocks.map fun b => b.successors.length).sum
    { ok := true
      blocks
      edge_count
      back_edges := (blocks.map fun b => b.successors.countP (· ≤ b.start)).sum
      cyclomatic := (max 1 ((edge_count : Int) - blocks.length + 2)).toNat
      truncated }

end slop.core.analysis.xray
