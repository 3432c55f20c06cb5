import ReverseSlop.Core.Memory.Memscan.ScanRun

namespace slop.core.memory

open infra

/-- The scan engine between two scans. `reads` is not in the program: it keeps
the reads of the last scan that succeeded. -/
structure memscan_t where
  results : List scan_result_t := []
  stash : List region_copy_t := []
  stats : scan_stats_t := {}
  last_width : value_width_t := .u32
  region_scan_active : Bool := false
  address_list : Bool := false
  reads : List detail.run_t := []

/-- The choices of one scan: the size of the machine, what worker `i` gets from
the target, from the token and from the shared `aborted` flag at its `n`-th
request, the total that its `k`-th addition to `stash_used` found, which worker
claims a batch of addresses, and the last poll of the caller. -/
structure scan_exec_t where
  hardware_concurrency : Nat
  reader : Nat → reader_t
  tok : Nat → cancel_token_t
  aborted : Nat → Nat → Bool
  stash_used : Nat → Nat → Nat
  owner : Nat → Nat
  cancelled : Bool

def worker_count (exec : scan_exec_t) (cfg : scan_config_t) : Nat :=
  max 1 (min (if cfg.threads ≠ 0 then cfg.threads else exec.hardware_concurrency) 64)

/-- `for (k = i; k < size; k += nw)`. -/
def strided {α : Type} (nw i : Nat) (l : List α) : List α :=
  (l.zipIdx.filter fun (_, k) => k % nw = i).map Prod.fst

def value_width_t.index : value_width_t → Nat
  | .i8 => 0
  | .u8 => 1
  | .i16 => 2
  | .u16 => 3
  | .i32 => 4
  | .u32 => 5
  | .i64 => 6
  | .u64 => 7
  | .f32 => 8
  | .f64 => 9

/-- Rows by address, then by width. -/
def scan_result_t.precedes (a b : scan_result_t) : Bool :=
  if a.address ≠ b.address then a.address ≤ b.address else a.width.index ≤ b.width.index

/-- The rows of all workers cut at the cap and sorted, with the added up
statistics. -/
def merge_workers (outs : List worker_out_t) (max_results : Nat) (st : scan_stats_t) :
    List scan_result_t × scan_stats_t :=
  let total := outs.flatMap worker_out_t.results
  let results := (total.take max_results).mergeSort scan_result_t.precedes
  (results, { st with
    bytes_scanned := st.bytes_scanned + (outs.map worker_out_t.bytes_scanned).sum
    slots_scanned := st.slots_scanned + (outs.map worker_out_t.slots_scanned).sum
    regions_scanned := st.regions_scanned + (outs.map worker_out_t.regions_scanned).sum
    slots_tracked := st.slots_tracked + (outs.map worker_out_t.slots_tracked).sum
    truncated := st.truncated || outs.any worker_out_t.truncated || decide (max_results < total.length)
    found := results.length })

def worker_out_t.log_read (out : worker_out_t) (run : detail.run_t) : worker_out_t :=
  { out with reads := out.reads ++ [run] }

/-- The sink of `walk_region`: keep a copy of the run, or search it. -/
def walk_sink (cfg : scan_config_t) (fs : fastscan_t) (stash_mode : Bool) (stash_used : Nat → Nat)
    (stash_budget : Nat) (out : worker_out_t) (run : detail.run_t) : worker_out_t :=
  let len := run.data.length
  let out := { out.log_read run with bytes_scanned := out.bytes_scanned + len }
  if stash_mode then
    let used := stash_used out.reads.length + len
    if stash_budget < used then { out with truncated := true }
    else { out with
      stash := out.stash ++ [⟨run.addr, run.data⟩]
      slots_tracked := out.slots_tracked + len
      slots_scanned := out.slots_scanned + len / value_size cfg.width }
  else scan_run cfg fs run.addr run.data none out

/-- The chunk loop of `walk_region`, with the number of the next request. -/
def walk_chunks (r : reader_t) (tok : cancel_token_t) (cfg : scan_config_t)
    (sink : worker_out_t → detail.run_t → worker_out_t) (end_addr cursor n : Nat) (out : worker_out_t) :
    worker_out_t × Nat :=
  if cursor < end_addr then
    if tok.cancelled n then (out, n + 1)
    else
      let want := min cfg.chunk (end_addr - cursor)
      let (runs, next) := detail.resilient_read r tok cursor want 4096 (n + 1)
      let out := runs.foldl sink out
      if out.truncated then (out, next) else walk_chunks r tok cfg sink end_addr (cursor + want) next out
  else (out, n)
termination_by end_addr - cursor
decreasing_by
  have := cfg.chunk_pos
  omega

def walk_region (r : reader_t) (tok : cancel_token_t) (cfg : scan_config_t)
    (sink : worker_out_t → detail.run_t → worker_out_t) (reg : scan_region_t) (n : Nat) (out : worker_out_t) :
    worker_out_t × Nat :=
  let (out, next) := walk_chunks r tok cfg sink (reg.base + reg.size) reg.base n out
  ({ out with regions_scanned := out.regions_scanned + 1 }, next)

/-- One worker of the first scan over its share of the regions. A worker that is
truncated has set `aborted` itself. -/
def first_scan_worker (r : reader_t) (tok : cancel_token_t) (aborted : Nat → Bool) (cfg : scan_config_t)
    (sink : worker_out_t → detail.run_t → worker_out_t) (region_scan : Bool) :
    List scan_region_t → Nat → worker_out_t → worker_out_t
  | [], _, out => out
  | reg :: rest, n, out =>
    if out.truncated || aborted n || tok.cancelled n then out
    else
      let (out, next) := walk_region r tok cfg sink reg (n + 1) out
      if !region_scan && cfg.result_cap ≤ out.results.length then { out with truncated := true }
      else first_scan_worker r tok aborted cfg sink region_scan rest next out

/-- The configuration a first scan runs with. -/
def scan_config_t.first_run (cfg : scan_config_t) : scan_config_t :=
  if is_relational cfg.type then { cfg with type := .unknown_initial } else cfg

def scan_config_t.is_region_scan (cfg : scan_config_t) : Bool := cfg.first_run.type = .unknown_initial

def first_scan_outs (exec : scan_exec_t) (regions : List scan_region_t) (cfg : scan_config_t) :
    List worker_out_t :=
  let regions := filter_regions cfg regions
  let run_cfg := cfg.first_run
  let region_scan := cfg.is_region_scan
  let stash_budget := if region_scan then limits.max_stash_bytes else 0
  let nw := max 1 (min (worker_count exec run_cfg) regions.length)
  (List.range nw).map fun i =>
    first_scan_worker (exec.reader i) (exec.tok i) (exec.aborted i) run_cfg
      (walk_sink run_cfg (make_fastscan cfg) region_scan (exec.stash_used i) stash_budget)
      region_scan (strided nw i regions) 0 {}

/-- The first scan walks the regions. Relational types degrade to an unknown
scan, which keeps a copy of the memory instead of rows. -/
def first_scan (exec : scan_exec_t) (regions : List scan_region_t) (cfg : scan_config_t) : memscan_t :=
  let filtered := filter_regions cfg regions
  let stats : scan_stats_t := { regions := filtered.length }
  if filtered.isEmpty then { last_width := cfg.width, stats }
  else
    let region_scan := cfg.is_region_scan
    let outs := first_scan_outs exec regions cfg
    let (results, stats) := merge_workers outs (if region_scan then 0 else cfg.result_cap) stats
    let reads := outs.flatMap worker_out_t.reads
    if region_scan then
      let stash := (outs.flatMap worker_out_t.stash).mergeSort fun a b => a.base ≤ b.base
      { stash, reads, last_width := cfg.width, region_scan_active := !stash.isEmpty, address_list := false,
        stats := { stats with found := 0, cancelled := exec.cancelled } }
    else
      { results, reads, last_width := cfg.width, region_scan_active := false, address_list := !results.isEmpty,
        stats := { stats with cancelled := exec.cancelled } }

/-- The sink of a scan over the stash: compare a freshly read run with the same
part of the stored copy. -/
def stash_sink (cfg : scan_config_t) (fs : fastscan_t) (rc : region_copy_t) (out : worker_out_t)
    (run : detail.run_t) : worker_out_t :=
  let out := out.log_read run
  let old_off := run.addr - rc.base
  if rc.bytes.length < old_off then out
  else
    let comparable := min run.data.length (rc.bytes.length - old_off)
    if comparable = 0 then out
    else
      let out := { out with bytes_scanned := out.bytes_scanned + comparable }
      let out := scan_run cfg fs run.addr (run.data.take comparable) (some (rc.bytes.drop old_off)) out
      if cfg.result_cap ≤ out.results.length then { out with truncated := true } else out

def stash_worker (r : reader_t) (tok : cancel_token_t) (aborted : Nat → Bool) (cfg : scan_config_t)
    (fs : fastscan_t) : List region_copy_t → Nat → worker_out_t → worker_out_t
  | [], _, out => out
  | rc :: rest, n, out =>
    if aborted n || tok.cancelled n then out
    else
      let (runs, next) := detail.resilient_read r tok rc.base rc.bytes.length 4096 (n + 1)
      let out := runs.foldl (stash_sink cfg fs rc) out
      if out.truncated then out else stash_worker r tok aborted cfg fs rest next out

/-- The rows of one batch; the flag is the early return at the cap. -/
def list_batch (r : reader_t) (cfg : scan_config_t) :
    List scan_result_t → Nat → worker_out_t → worker_out_t × Nat × Bool
  | [], n, out => (out, n, false)
  | row :: rest, n, out =>
    let vs := value_size row.width
    match r.read n row.address vs with
    | none => list_batch r cfg rest (n + 1) out
    | some data =>
      let bits := load_bits data vs
      let out := (out.log_read ⟨row.address, data⟩).count_slot
      if check_value cfg row.width bits row.bits then
        let (out, full) := out.push_result cfg.result_cap ⟨row.address, bits, row.width⟩
        if full then (out, n + 1, true) else list_batch r cfg rest (n + 1) out
      else list_batch r cfg rest (n + 1) out

def list_worker (r : reader_t) (tok : cancel_token_t) (cfg : scan_config_t) :
    List (List scan_result_t) → Nat → worker_out_t → worker_out_t
  | [], _, out => out
  | batch :: rest, n, out =>
    if tok.cancelled n then out
    else
      match list_batch r cfg batch (n + 1) out with
      | (out, _, true) => out
      | (out, next, false) => list_worker r tok cfg rest next out

/-- The slices of 64 rows that the shared counter hands out. -/
def batches (rows : List scan_result_t) : List (List scan_result_t) :=
  (List.range ((rows.length + 63) / 64)).map fun k => (rows.drop (64 * k)).take 64

/-- The batches a worker gets from the shared counter. -/
def scan_exec_t.claimed (exec : scan_exec_t) (nw i : Nat) (batches : List (List scan_result_t)) :
    List (List scan_result_t) :=
  (batches.zipIdx.filter fun (_, k) => exec.owner k % nw = i).map Prod.fst

def stash_outs (exec : scan_exec_t) (cfg : scan_config_t) (stash : List region_copy_t) : List worker_out_t :=
  let nw := max 1 (min (worker_count exec cfg) (if stash.length ≠ 0 then stash.length else 1))
  (List.range nw).map fun i =>
    stash_worker (exec.reader i) (exec.tok i) (exec.aborted i) cfg (make_fastscan cfg) (strided nw i stash) 0 {}

def list_outs (exec : scan_exec_t) (cfg : scan_config_t) (prev : List scan_result_t) : List worker_out_t :=
  let nw := worker_count exec cfg
  (List.range nw).map fun i =>
    list_worker (exec.reader i) (exec.tok i) cfg (exec.claimed nw i (batches prev)) 0 {}

/-- A further scan: over the stash while it is alive, over the address list after
that. `false` is the error that there is no previous scan. -/
def next_scan (exec : scan_exec_t) (cfg : scan_config_t) (m : memscan_t) : Bool × memscan_t :=
  if !m.region_scan_active && !m.address_list then (false, { m with reads := [] })
  else if cfg.type = .unknown_initial then (true, { m with reads := [] })
  else
    let outs := if m.region_scan_active then stash_outs exec cfg m.stash else list_outs exec cfg m.results
    let (results, st) := merge_workers outs cfg.result_cap { regions := m.stats.regions }
    (true, {
      results
      stash := if m.region_scan_active then [] else m.stash
      last_width := cfg.width
      region_scan_active := false
      address_list := !results.isEmpty
      reads := outs.flatMap worker_out_t.reads
      stats := { st with
        regions_scanned := st.regions_scanned + m.stats.regions_scanned
        bytes_scanned := st.bytes_scanned + m.stats.bytes_scanned
        slots_tracked := m.stats.slots_tracked
        cancelled := exec.cancelled } })

end slop.core.memory
