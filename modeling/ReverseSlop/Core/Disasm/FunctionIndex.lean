import ReverseSlop.Core.Disasm.BinaryState
import ReverseSlop.Library.Extents

namespace slop.core.disasm.function_index

structure function_t where
  va : UInt64
  size : UInt64
  deriving DecidableEq

structure function_stats_t where
  seeds : Nat := 0
  rd_functions : Nat := 0
  heuristic_fns : Nat := 0
  truncated : Bool := false

structure function_index_t where
  fns : List function_t := []
  stats : function_stats_t := {}

/-- An image with its decoder, which consumes at least one byte and no more than it was given. -/
structure image_ref_t where
  pe : pe_image_t
  file : List UInt8
  base : UInt64
  eng : engine_t
  eng_ok : Bool := true
  max_functions : Nat := 100000
  fits : ∀ va buf insn, eng.decode va buf = some insn → 0 < insn.length.toNat ∧ insn.length.toNat ≤ buf.length

structure exec_range_t where
  va : UInt64
  file_off : Nat
  len : UInt64

def exec_range (base : UInt64) (s : pe_section_t) : exec_range_t :=
  ⟨base + s.rva.toUInt64, s.raw_offset.toNat, s.raw_size.toUInt64⟩

def exec_ranges (img : image_ref_t) : List exec_range_t :=
  (img.pe.sections.filter fun s =>
    s.is_executable && s.raw_size ≠ 0 && s.raw_offset.toNat + s.raw_size.toNat ≤ img.file.length).map
      (exec_range img.base)

def range_for_va (ranges : List exec_range_t) (va : UInt64) : Option exec_range_t :=
  ranges.find? fun r => r.va ≤ va && va < r.va + r.len

/-- The instruction at an offset of a range. -/
def image_ref_t.decode (img : image_ref_t) (rng : exec_range_t) (va : UInt64) : Option insn_t :=
  let off := va - rng.va
  if off ≥ rng.len then none
  else img.eng.decode va ((img.file.drop (rng.file_off + off.toNat)).take (rng.len - off).toNat)

def push_target (ranges : List exec_range_t) (va : UInt64) (worklist : List UInt64) : List UInt64 :=
  if (range_for_va ranges va).isSome then va :: worklist else worklist

/-- The starts still to visit, the last one first, and the ends that the exception table records. -/
structure seeds_t where
  worklist : List UInt64 := []
  pdata_end : List (UInt64 × UInt64) := []
  seeds : Nat := 0

def seeds_t.pdata (img : image_ref_t) (ranges : List exec_range_t) (t : seeds_t) (rf : pe_runtime_func_t) : seeds_t :=
  if rf.begin_rva = 0 ∨ rf.end_rva ≤ rf.begin_rva then t
  else
    let start := img.base + rf.begin_rva.toUInt64
    match range_for_va ranges start with
    | none => t
    | some rng =>
      let clipped := min (img.base + rf.end_rva.toUInt64) (rng.va + rng.len)
      if clipped ≤ start then t
      else
        { worklist := start :: t.worklist
          pdata_end :=
            if (t.pdata_end.lookup start).all (· < clipped) then
              (start, clipped) :: t.pdata_end.filter fun e => e.1 ≠ start
            else t.pdata_end
          seeds := t.seeds + 1 }

def seed (img : image_ref_t) (ranges : List exec_range_t) : seeds_t :=
  let exports := img.pe.exports.filter fun e => e.rva ≠ 0 && !e.forwarded
  let worklist := push_target ranges (img.base + img.pe.entry_rva.toUInt64) []
  let worklist := exports.foldl (fun w e => push_target ranges (img.base + e.rva.toUInt64) w) worklist
  img.pe.runtime_funcs.foldl (seeds_t.pdata img ranges) { worklist, seeds := 1 + exports.length }

/-- The end of the instructions from `va` on, and the worklist with the targets of their calls. -/
def walk (img : image_ref_t) (ranges : List exec_range_t) (rng : exec_range_t) :
    Nat → UInt64 → List UInt64 → UInt64 × List UInt64
  | 0, va, worklist => (va, worklist)
  | fuel + 1, va, worklist =>
    match img.decode rng va with
    | none => (va, worklist)
    | some insn =>
      let worklist :=
        if insn.flow = .call ∧ insn.has_rel_target then push_target ranges insn.rel_target worklist else worklist
      if insn.flow = .ret ∨ insn.flow = .jmp then (va + insn.length.toUInt64, worklist)
      else walk img ranges rng fuel (va + insn.length.toUInt64) worklist

/-- The size of a function that has been decoded up to `stop`. -/
def extent_size (pdata_end : List (UInt64 × UInt64)) (start stop : UInt64) : UInt64 :=
  let sz :=
    match pdata_end.lookup start with
    | some pdata_stop => max (stop - start) (pdata_stop - start)
    | none => stop - start
  if sz = 0 then 1 else sz

structure descent_t where
  claimed : List UInt64 := []
  extent : List (UInt64 × UInt64) := []
  truncated : Bool := false

/-- Recursive descent, with room for `n` more starts. An instruction has at least one byte,
so there are no more of them in a range than bytes. -/
def descend (img : image_ref_t) (ranges : List exec_range_t) (pdata_end : List (UInt64 × UInt64)) :
    Nat → List UInt64 → descent_t → descent_t
  | 0, worklist, t => { t with truncated := worklist ≠ [] }
  | n + 1, worklist, t =>
    match worklist.dropWhile fun va => va ∈ t.claimed with
    | [] => t
    | start :: worklist =>
      let claimed := start :: t.claimed
      match range_for_va ranges start with
      | none => descend img ranges pdata_end n worklist { t with claimed }
      | some rng =>
        let (stop, worklist) := walk img ranges rng rng.len.toNat start worklist
        let extent := (start, extent_size pdata_end start stop) :: t.extent
        descend img ranges pdata_end n worklist { t with claimed, extent }

/-- The order in which the hash table of the ends is iterated. -/
structure hash_order_t where
  order : List (UInt64 × UInt64) → List (UInt64 × UInt64)
  perm : ∀ l, (order l).Perm l

/-- The recorded functions that the descent has not reached, and whether there were too many. -/
def unreached (max_functions : Nat) : List (UInt64 × UInt64) → List (UInt64 × UInt64) → List function_t →
    List (UInt64 × UInt64) × List function_t × Bool
  | [], extent, fns => (extent, fns, false)
  | (start, pdata_stop) :: pdata_end, extent, fns =>
    if extent.any fun e => e.1 = start then unreached max_functions pdata_end extent fns
    else if fns.length + extent.length ≥ max_functions then (extent, fns, true)
    else unreached max_functions pdata_end ((start, pdata_stop - start) :: extent) (⟨start, pdata_stop - start⟩ :: fns)

def prologues : List (List UInt8) :=
  [[0x48, 0x89, 0x5C, 0x24], [0x48, 0x89, 0x4C, 0x24], [0x48, 0x89, 0x74, 0x24], [0x4C, 0x89, 0x44, 0x24],
    [0x48, 0x83, 0xEC], [0x48, 0x81, 0xEC], [0x48, 0x8B, 0xC4]]

def looks_like_prologue (p : List UInt8) : Bool := 5 ≤ p.length && prologues.any fun pat => pat.isPrefixOf p

def good_preceding_boundary (c : UInt8) : Bool := c = 0xCC || c = 0xC3

/-- The address of the first `ret` from `va` on. -/
def find_ret (img : image_ref_t) (rng : exec_range_t) : Nat → UInt64 → Option UInt64
  | 0, _ => none
  | steps + 1, va =>
    match img.decode rng va with
    | none => none
    | some insn => if insn.flow = .ret then some va else find_ret img rng steps (va + insn.length.toUInt64)

/-- The function that the sweep finds at an offset of a range. -/
def candidate (img : image_ref_t) (known : UInt64 → Bool) (rng : exec_range_t) (off : Nat) : Option function_t :=
  let bytes := (img.file.drop rng.file_off).take rng.len.toNat
  let cand := rng.va + off.toUInt64
  if !good_preceding_boundary (bytes.getD (off - 1) 0) then none
  else if !looks_like_prologue (bytes.drop off) then none
  else if known cand then none
  else (find_ret img rng 2048 cand).map fun va => ⟨cand, va + 1 - cand⟩

def sweep_range (img : image_ref_t) (known : UInt64 → Bool) (rng : exec_range_t) :
    List Nat → List function_t → List function_t × Bool
  | [], fns => (fns, false)
  | off :: offs, fns =>
    if fns.length ≥ img.max_functions then (fns, true)
    else sweep_range img known rng offs ((candidate img known rng off).toList ++ fns)

def sweep (img : image_ref_t) (known : UInt64 → Bool) : List exec_range_t → List function_t → List function_t × Bool
  | [], fns => (fns, false)
  | rng :: ranges, fns =>
    if fns.length ≥ img.max_functions then (fns, true)
    else
      let (fns, truncated) := sweep_range img known rng (List.range' 1 (rng.len.toNat - 2)) fns
      let (fns, later) := sweep img known ranges fns
      (fns, truncated || later)

def is_covered (extent : List (UInt64 × UInt64)) (va : UInt64) : Bool :=
  let covered := extent.map (fun e => (e.1, e.1 + e.2)) |>.mergeSort fun a b => a.1 ≤ b.1
  (Extents.last_le (fun e => e.1.toNat) va.toNat covered).any fun e => va < e.2

/-- What the passes find, the functions in the order from the last one on. -/
def discover (img : image_ref_t) (hash : hash_order_t) : function_index_t :=
  let ranges := exec_ranges img
  let t := seed img ranges
  let d := descend img ranges t.pdata_end img.max_functions t.worklist {}
  let fns := d.extent.map fun e => ⟨e.1, e.2⟩
  let (extent, fns, full) := unreached img.max_functions (hash.order t.pdata_end) d.extent fns
  let (all, cut) := sweep img (fun va => decide (va ∈ d.claimed) || is_covered extent va) ranges fns
  { fns := all
    stats :=
      { seeds := t.seeds
        rd_functions := fns.length
        heuristic_fns := all.length - fns.length
        truncated := d.truncated || full || cut } }

/-- A sort by the addresses, which may exchange functions with the same one. -/
structure sort_t where
  sort : List function_t → List function_t
  perm : ∀ l, (sort l).Perm l
  sorted : ∀ l, (sort l).Pairwise fun f g => f.va.toNat ≤ g.va.toNat

/-- Sizes clipped at the next start. -/
def clip : List function_t → List function_t
  | [] => []
  | [f] => [f]
  | f :: g :: fns => { f with size := min f.size (g.va - f.va) } :: clip (g :: fns)

/-- The index, if the image has code at all. -/
def build (img : image_ref_t) (hash : hash_order_t) (lib : sort_t) : Bool × function_index_t :=
  if !img.pe.ok || !img.eng_ok then (false, {})
  else if (exec_ranges img).isEmpty then (false, {})
  else
    let found := discover img hash
    (true, { found with fns := clip (Extents.unique_by (fun f => f.va.toNat) (lib.sort found.fns)) })

def containing (fns : List function_t) (va : UInt64) : Option UInt64 :=
  match Extents.last_le (fun f => f.va.toNat) va.toNat fns with
  | none => none
  | some f => if va < f.va + f.size then some f.va else none

end slop.core.disasm.function_index
