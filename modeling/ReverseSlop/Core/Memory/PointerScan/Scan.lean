import ReverseSlop.Core.Infra.Limits
import ReverseSlop.Core.Memory.ReadUtil
import ReverseSlop.Library.Arithmetic
import ReverseSlop.Library.Bytes

namespace slop.core.memory.pointer

open infra.limits (max_pointer_edges max_pointer_depth max_pointer_chains)
open Alignment (round_up)

structure pointer_scan_options_t where
  target : UInt64
  depth : UInt32 := 3
  min_offset : Int32 := -4096
  max_offset : Int32 := 4096
  alignment : UInt32 := 4
  frontier_cap : Nat := 100000
  only_module_backed : Bool := false

namespace pointer_scan_options_t

variable (opt : pointer_scan_options_t)

/-- The depth, clamped. -/
def levels : Nat := min (if opt.depth = 0 then 1 else opt.depth.toNat) max_pointer_depth

def min_off : Int := opt.min_offset.toInt

def max_off : Int := max opt.max_offset.toInt opt.min_offset.toInt

def align : Nat := if opt.alignment = 0 then 1 else opt.alignment.toNat

end pointer_scan_options_t

structure pointer_chain_result_t where
  addresses : List Nat := []
  offsets : List Int := []
  deriving DecidableEq

structure pointer_scan_stats_t where
  edges_explored : Nat := 0
  truncated : Bool := false
  cancelled : Bool := false

/-- A qword that is not null, and where it is. -/
structure edge_t where
  value : Nat
  holder : Nat
  deriving DecidableEq

/-- The target, or a holder with the node that it leads to. Nodes never change, so they have
their parent itself and not its index. -/
inductive node_t where
  | target (addr : Nat)
  | holder (addr : Nat) (offset : Int) (parent : node_t)
  deriving DecidableEq

def node_t.addr : node_t → Nat
  | .target addr => addr
  | .holder addr _ _ => addr

/-- The walk over the parents. -/
def node_t.chain : node_t → pointer_chain_result_t
  | .target _ => {}
  | .holder addr offset parent =>
    { addresses := addr :: parent.chain.addresses, offsets := offset :: parent.chain.offsets }

/-- The node whose parent is the target. -/
def node_t.root : node_t → node_t
  | .target addr => .target addr
  | .holder addr offset (.target dest) => .holder addr offset (.target dest)
  | .holder _ _ parent => parent.root

def kMemImage : BitVec 32 := 0x1000000

def in_module_backed (addr : Nat) (regions : List scan_region_t) : Bool :=
  regions.any fun reg => reg.type &&& kMemImage ≠ 0 && reg.base ≤ addr && addr < reg.base + reg.size

structure span_t where
  start : Nat
  stop : Nat

/-- The regions from the first aligned address on, with more than eight bytes. -/
def aligned_spans (align : Nat) (regions : List scan_region_t) : List span_t :=
  regions.filterMap fun reg =>
    let b := round_up reg.base align
    let e := reg.base + reg.size
    if reg.size < 8 then none
    else if e ≤ b + 8 then none
    else some ⟨b, e⟩

def kChunk : Nat := 1 <<< 20

/-- The addresses and lengths that are read of a span. -/
def chunks (s : span_t) : List detail.seg_t :=
  (List.range ((s.stop - s.start + kChunk - 1) / kChunk)).map fun k =>
    ⟨s.start + k * kChunk, min kChunk (s.stop - (s.start + k * kChunk))⟩

/-- The aligned addresses of a run with a whole qword. -/
def holders (align : Nat) (run : detail.run_t) : List Nat :=
  let first := round_up run.addr align
  let stop := run.addr + run.data.length
  List.range' first (if first + 8 ≤ stop then (stop - 8 - first) / align + 1 else 0) align

def run_edges (align : Nat) (run : detail.run_t) : List edge_t :=
  (holders align run).filterMap fun p =>
    let v := Bytes.of_le ((run.data.drop (p - run.addr)).take 8)
    if v ≠ 0 then some ⟨v, p⟩ else none

structure sweep_t where
  edges : List edge_t := []
  stats : pointer_scan_stats_t := {}

/-- The edges of a run are kept up to the one that is too many. -/
def push_edges : List edge_t → sweep_t → sweep_t
  | [], st => st
  | e :: es, st =>
    let explored := st.stats.edges_explored + 1
    if explored > max_pointer_edges then
      ⟨e :: st.edges, { st.stats with edges_explored := explored, truncated := true }⟩
    else push_edges es ⟨e :: st.edges, { st.stats with edges_explored := explored }⟩

/-- The sink over the runs of a read. -/
def push_runs (align : Nat) (runs : List detail.run_t) (st : sweep_t) : sweep_t :=
  runs.foldl (fun st run => push_edges (run_edges align run) st) st

/-- The sweep over the chunks from poll number `n` on, and the number of the next poll. -/
def sweep_chunks (r : reader_t) (tok : cancel_token_t) (align : Nat) :
    List detail.seg_t → Nat → sweep_t → sweep_t × Nat
  | [], n, st => (st, n)
  | c :: rest, n, st =>
    if st.stats.truncated then (st, n)
    else if tok.cancelled n then ({ st with stats := { st.stats with cancelled := true } }, n + 1)
    else
      let read := detail.resilient_read r tok c.addr c.len 8 (n + 1)
      sweep_chunks r tok align rest read.2 (push_runs align read.1 st)

def sweep_spans (r : reader_t) (tok : cancel_token_t) (align : Nat) : List span_t → Nat → sweep_t → sweep_t × Nat
  | [], n, st => (st, n)
  | s :: rest, n, st =>
    if st.stats.truncated then (st, n)
    else if tok.cancelled n then (st, n + 1)
    else
      let out := sweep_chunks r tok align (chunks s) (n + 1) st
      sweep_spans r tok align rest out.2 out.1

def to_uint64 (x : Int) : Nat := (x % 2 ^ 64).toNat

def to_int64 (n : Nat) : Int := if n < 2 ^ 63 then n else (n : Int) - 2 ^ 64

/-- The values from which an offset leads to an address, as unsigned numbers. -/
def window (opt : pointer_scan_options_t) (dest : Nat) : Option (Nat × Nat) :=
  if opt.min_off > 0 ∧ opt.min_off.toNat > dest then none
  else
    let lo := if opt.max_off > 0 ∧ opt.max_off.toNat > dest then 0 else Word.sub64 dest (to_uint64 opt.max_off)
    let hi := Word.sub64 dest (to_uint64 opt.min_off)
    if hi < lo then none else some (lo, hi)

/-- The holders that lead to a node. -/
def links (opt : pointer_scan_options_t) (edges : List edge_t) (node : node_t) : List node_t :=
  match window opt node.addr with
  | none => []
  | some (lo, hi) =>
    ((edges.dropWhile fun e => e.value < lo).takeWhile fun e => e.value ≤ hi).map fun e =>
      .holder e.holder (to_int64 (Word.sub64 node.addr e.value)) node

/-- The nodes of a level, until there are too many. -/
structure level_t where
  next : List node_t := []
  full : Bool := false

def push_links (cap : Nat) : List node_t → level_t → level_t
  | [], l => l
  | node :: rest, l =>
    let next := l.next ++ [node]
    if next.length ≥ cap then ⟨next, true⟩ else push_links cap rest { l with next }

/-- The level behind a frontier, whether it has been cancelled, and the number of the next poll. -/
structure expansion_t where
  level : level_t
  cancelled : Bool
  polls : Nat

def expand_level (tok : cancel_token_t) (opt : pointer_scan_options_t) (edges : List edge_t) :
    List node_t → Nat → level_t → expansion_t
  | [], n, l => ⟨l, false, n⟩
  | node :: frontier, n, l =>
    if tok.cancelled n then ⟨l, true, n + 1⟩
    else if l.full then ⟨l, false, n + 1⟩
    else expand_level tok opt edges frontier (n + 1) (push_links opt.frontier_cap (links opt edges node) l)

def expand (tok : cancel_token_t) (opt : pointer_scan_options_t) (edges : List edge_t) :
    Nat → List node_t → Nat → List node_t → pointer_scan_stats_t → List node_t × pointer_scan_stats_t
  | 0, _, _, nodes, st => (nodes, st)
  | level + 1, frontier, n, nodes, st =>
    if frontier = [] then (nodes, st)
    else if tok.cancelled n then (nodes, { st with cancelled := true })
    else
      let out := expand_level tok opt edges frontier (n + 1) {}
      let st := { st with truncated := st.truncated || out.level.full, cancelled := st.cancelled || out.cancelled }
      let nodes := nodes ++ out.level.next
      if st.truncated ∧ out.level.next = [] then (nodes, st)
      else expand tok opt edges level out.level.next out.polls nodes st

/-- The chains of the nodes, and whether there are too many. -/
def build_chains (opt : pointer_scan_options_t) (regions : List scan_region_t) :
    List node_t → List pointer_chain_result_t → List pointer_chain_result_t × Bool
  | [], results => (results, false)
  | node :: nodes, results =>
    if results.length ≥ max_pointer_chains then (results, true)
    else if opt.only_module_backed ∧ !in_module_backed node.root.addr regions then build_chains opt regions nodes results
    else build_chains opt regions nodes (results ++ [node.chain])

/-- A sort by the values, which may exchange edges with the same one. -/
structure edge_sort_t where
  sort : List edge_t → List edge_t
  perm : ∀ l, (sort l).Perm l
  sorted : ∀ l, (sort l).Pairwise fun a b => a.value ≤ b.value

/-- The nodes behind the target, unless the sweep has found nothing or has been cancelled. -/
def search (lib : edge_sort_t) (opt : pointer_scan_options_t) (tok : cancel_token_t) (sw : sweep_t × Nat) :
    List node_t × pointer_scan_stats_t :=
  let st := { sw.1.stats with cancelled := sw.1.stats.cancelled || tok.cancelled sw.2 }
  if sw.1.edges ≠ [] ∧ !st.cancelled then
    expand tok opt (lib.sort sw.1.edges) opt.levels [.target opt.target.toNat] (sw.2 + 1) [] st
  else ([], st)

def pointer_scan (r : reader_t) (lib : edge_sort_t) (regions : List scan_region_t) (opt : pointer_scan_options_t)
    (tok : cancel_token_t) : List pointer_chain_result_t × pointer_scan_stats_t :=
  let found := search lib opt tok (sweep_spans r tok opt.align (aligned_spans opt.align regions) 0 {})
  let built := build_chains opt regions found.1 []
  (built.1, { found.2 with truncated := found.2.truncated || built.2 })

end slop.core.memory.pointer
