import ReverseSlop.Core.Memory.Memscan.Engine
import ReverseSlop.Core.Memory.Memscan.Rows
import Mathlib.Algebra.Order.BigOperators.Group.List
import Mathlib.Data.List.Flatten

namespace slop.core.memory

open Capped

/-- The bits a slot holds. -/
def memory_t.load (mem : memory_t) (a : Nat) (w : value_width_t) : BitVec 64 :=
  load_bits (mem.bytes_at a (value_size w)) (value_size w)

/-- The row of a slot. -/
def memory_t.row (mem : memory_t) (w : value_width_t) (a : Nat) : scan_result_t := ⟨a, mem.load a w, w⟩

/-- A first scan takes the bytes of the slot. -/
def scan_config_t.Accepts (cfg : scan_config_t) (mem : memory_t) (w : value_width_t) (a : Nat) : Prop :=
  check_value cfg w (mem.load a w) 0 = true

instance (cfg : scan_config_t) (mem : memory_t) (w : value_width_t) (a : Nat) : Decidable (cfg.Accepts mem w a) :=
  inferInstanceAs (Decidable (_ = _))

/-- Both ends of `[a, a + len)` lie in the same chunk of a walk from `start`. -/
def scan_config_t.SameChunk (cfg : scan_config_t) (start a len : Nat) : Prop :=
  (a - start) / cfg.chunk = (a + len - 1 - start) / cfg.chunk

/-- Every read succeeds and answers from one memory, and no poll is cancelled. -/
structure scan_exec_t.Steady (exec : scan_exec_t) (mem : memory_t) : Prop where
  reads : ∀ i n addr len, (exec.reader i).read n addr len = mem.read addr len
  live : ∀ i n, (exec.tok i).cancelled n = false

/-- Nothing but a truncated worker sets the shared flag. -/
def scan_exec_t.AbortsWhenTruncated (exec : scan_exec_t) (regions : List scan_region_t) (cfg : scan_config_t) :
    Prop :=
  ∀ i n, exec.aborted i n = true → ∃ out ∈ first_scan_outs exec regions cfg, out.truncated = true

/-- The rows of a walk from `cursor`, chunk after chunk. -/
def chunk_hits (cfg : scan_config_t) (mem : memory_t) (end_addr cursor : Nat) : List scan_result_t :=
  if cursor < end_addr then
    let want := min cfg.chunk (end_addr - cursor)
    run_hits cfg cursor (mem.bytes_at cursor want) ++ chunk_hits cfg mem end_addr (cursor + want)
  else []
termination_by end_addr - cursor
decreasing_by
  have := cfg.chunk_pos
  omega

def region_hits (cfg : scan_config_t) (mem : memory_t) (reg : scan_region_t) : List scan_result_t :=
  chunk_hits cfg mem (reg.base + reg.size) reg.base

theorem load_bits_take (data : List UInt8) (n : Nat) : load_bits (data.take n) n = load_bits data n := by
  rw [load_bits, List.take_take, Nat.min_self, load_bits]

private theorem memory_t.load_bits_drop_bytes_at (mem : memory_t) {addr len off : Nat} {w : value_width_t}
    (hroom : off + value_size w ≤ len) :
    load_bits ((mem.bytes_at addr len).drop off) (value_size w) = mem.load (addr + off) w := by
  rw [mem.drop_bytes_at (by omega), ← load_bits_take, mem.take_bytes_at (by omega)]
  rfl

private theorem mem_run_hits_bytes_at {cfg : scan_config_t} {mem : memory_t} {cursor want : Nat} {row : scan_result_t} :
    row ∈ run_hits cfg cursor (mem.bytes_at cursor want) ↔
      row.width ∈ cfg.widths ∧ cursor ≤ row.address ∧
      row.address + value_size row.width ≤ cursor + want ∧
      row = mem.row row.width row.address ∧ cfg.Accepts mem row.width row.address := by
  rw [mem_run_hits, mem.length_bytes_at]
  refine and_congr_right fun _ => and_congr_right fun hlo => and_congr_right fun hhi => ?_
  rw [mem.load_bits_drop_bytes_at (by omega), Nat.add_sub_cancel' hlo]
  unfold scan_config_t.Accepts memory_t.row
  constructor
  · rintro ⟨hbits, hcheck⟩
    rw [← hbits]
    exact ⟨rfl, hcheck⟩
  · rintro ⟨hrow, hcheck⟩
    have hbits := congrArg scan_result_t.bits hrow
    exact ⟨hbits, hbits ▸ hcheck⟩

/-- A walk finds the accepted slots that no chunk border cuts. -/
theorem mem_chunk_hits {cfg : scan_config_t} {mem : memory_t} {end_addr cursor : Nat} {row : scan_result_t} :
    row ∈ chunk_hits cfg mem end_addr cursor ↔
      row.width ∈ cfg.widths ∧ cursor ≤ row.address ∧ row.address + value_size row.width ≤ end_addr ∧
      cfg.SameChunk cursor row.address (value_size row.width) ∧
      row = mem.row row.width row.address ∧ cfg.Accepts mem row.width row.address := by
  have hpos := cfg.chunk_pos
  have hsize := value_size_pos row.width
  fun_induction chunk_hits cfg mem end_addr cursor with
  | case1 cursor hmore want ih =>
    simp only [List.mem_append, mem_run_hits_bytes_at, ih]
    unfold scan_config_t.SameChunk
    constructor
    · rintro (⟨hw, hlo, hhi, hrow⟩ | ⟨hw, hlo, hhi, hsame, hrow⟩)
      · refine ⟨hw, hlo, by omega, ?_, hrow⟩
        rw [Nat.div_eq_of_lt (by omega), Nat.div_eq_of_lt (by omega)]
      · refine ⟨hw, by omega, hhi, ?_, hrow⟩
        have hwant : want = cfg.chunk := by omega
        rw [hwant] at hlo hsame
        rw [show row.address - cursor = row.address - (cursor + cfg.chunk) + cfg.chunk by omega,
          show row.address + value_size row.width - 1 - cursor =
            row.address + value_size row.width - 1 - (cursor + cfg.chunk) + cfg.chunk by omega,
          Nat.add_div_right _ hpos, Nat.add_div_right _ hpos, hsame]
    · rintro ⟨hw, hlo, hhi, hsame, hrow⟩
      by_cases hhere : row.address + value_size row.width ≤ cursor + want
      · exact Or.inl ⟨hw, hlo, hhere, hrow⟩
      · have hwant : want = cfg.chunk := by omega
        have hnext : cursor + cfg.chunk ≤ row.address := by
          -- a slot that starts in this chunk would end in it
          by_contra hnot
          rw [Nat.div_eq_of_lt (show row.address - cursor < cfg.chunk by omega)] at hsame
          have := (Nat.div_eq_zero_iff_lt hpos).mp hsame.symm
          omega
        rw [show row.address - cursor = row.address - (cursor + cfg.chunk) + cfg.chunk by omega,
          show row.address + value_size row.width - 1 - cursor =
            row.address + value_size row.width - 1 - (cursor + cfg.chunk) + cfg.chunk by omega,
          Nat.add_div_right _ hpos, Nat.add_div_right _ hpos] at hsame
        rw [hwant]
        exact Or.inr ⟨hw, hnext, hhi, Nat.succ.inj hsame, hrow⟩
  | case2 cursor hdone =>
    simp only [List.not_mem_nil, false_iff, not_and]
    intro _ hlo hhi
    omega

theorem mem_region_hits {cfg : scan_config_t} {mem : memory_t} {reg : scan_region_t} {row : scan_result_t} :
    row ∈ region_hits cfg mem reg ↔
      row.width ∈ cfg.widths ∧ reg.Holds row.address (value_size row.width) ∧
      cfg.SameChunk reg.base row.address (value_size row.width) ∧
      row = mem.row row.width row.address ∧ cfg.Accepts mem row.width row.address := by
  rw [region_hits, mem_chunk_hits, scan_region_t.Holds, and_assoc]

section

variable (cfg : scan_config_t) {mem : memory_t} {r : reader_t} {tok : cancel_token_t}

private theorem adds_walk_sink (stash_used : Nat → Nat) (stash_budget : Nat) (out : worker_out_t)
    (run : detail.run_t) :
    Adds cfg.result_cap (run_hits cfg run.addr run.data) out.rows
      (walk_sink cfg {} false stash_used stash_budget out run).rows :=
  adds_scan_run_hits cfg run.addr run.data { out.log_read run with bytes_scanned := out.bytes_scanned + run.data.length }

private theorem adds_walk_chunks (stash_used : Nat → Nat) (stash_budget : Nat)
    (hreads : ∀ n addr len, r.read n addr len = mem.read addr len) (hlive : ∀ n, tok.cancelled n = false)
    {end_addr cursor : Nat} (hreadable : ∀ a, cursor ≤ a → a < end_addr → (mem a).isSome) (n : Nat)
    (out : worker_out_t) :
    Adds cfg.result_cap (chunk_hits cfg mem end_addr cursor) out.rows
      (walk_chunks r tok cfg (walk_sink cfg {} false stash_used stash_budget) end_addr cursor n out).1.rows := by
  have hpos := cfg.chunk_pos
  fun_induction chunk_hits cfg mem end_addr cursor generalizing n out with
  | case1 cursor hmore want ih =>
    have hread : r.read (n + 1) cursor (min cfg.chunk (end_addr - cursor)) = some (mem.bytes_at cursor want) := by
      rw [hreads]
      exact mem.read_eq_bytes_at fun a hlo hhi => hreadable a hlo (by omega)
    have hsink := adds_walk_sink cfg stash_used stash_budget out ⟨cursor, mem.bytes_at cursor want⟩
    rw [walk_chunks, if_pos hmore, hlive n, if_neg (by simp)]
    simp only [detail.resilient_read_of_read (hlive (n + 1)) hread, List.foldl_cons, List.foldl_nil]
    split
    · next hfull => exact hsink.stop hfull _
    · exact hsink.trans (ih (fun a hlo hhi => hreadable a (by omega) hhi) _ _)
  | case2 cursor hdone =>
    rw [walk_chunks, if_neg hdone]
    exact .refl _ _

private theorem adds_walk_region (stash_used : Nat → Nat) (stash_budget : Nat)
    (hreads : ∀ n addr len, r.read n addr len = mem.read addr len) (hlive : ∀ n, tok.cancelled n = false)
    {reg : scan_region_t} (hreadable : ∀ a, reg.base ≤ a → a < reg.base + reg.size → (mem a).isSome)
    (n : Nat) (out : worker_out_t) :
    Adds cfg.result_cap (region_hits cfg mem reg) out.rows
      (walk_region r tok cfg (walk_sink cfg {} false stash_used stash_budget) reg n out).1.rows :=
  adds_walk_chunks cfg stash_used stash_budget hreads hlive hreadable n out

private theorem adds_first_scan_worker (stash_used : Nat → Nat) (stash_budget : Nat) {aborted : Nat → Bool}
    (hreads : ∀ n addr len, r.read n addr len = mem.read addr len) (hlive : ∀ n, tok.cancelled n = false)
    (haborted : ∀ n, aborted n = false) (regions : List scan_region_t) (hreadable : mem.Readable regions)
    (n : Nat) (out : worker_out_t) :
    Adds cfg.result_cap (regions.flatMap (region_hits cfg mem)) out.rows
      (first_scan_worker r tok aborted cfg (walk_sink cfg {} false stash_used stash_budget) false regions n
        out).rows := by
  induction regions generalizing n out with
  | nil => exact .refl _ _
  | cons reg rest ih =>
    have hwalk := adds_walk_region cfg stash_used stash_budget hreads hlive
      (hreadable reg (by simp)) (n + 1) out
    have hrest : mem.Readable rest := fun reg' hreg' => hreadable reg' (List.mem_cons_of_mem reg hreg')
    simp only [first_scan_worker, haborted, hlive, Bool.or_false, List.flatMap_cons, Bool.not_false,
      Bool.true_and]
    split
    · next hfull => exact (Adds.refl cfg.result_cap out.rows).stop hfull _
    · split
      · next hcap => exact hwalk.close (of_decide_eq_true hcap) _
      · exact hwalk.trans (ih hrest _ _)

/-- Every element has its place in the share of one worker. -/
theorem mem_strided {α : Type} {nw i : Nat} {l : List α} {x : α} (hx : x ∈ strided nw i l) : x ∈ l := by
  obtain ⟨⟨x', k⟩, hmem, rfl⟩ := List.mem_map.mp hx
  exact List.fst_mem_of_mem_zipIdx (List.mem_of_mem_filter hmem)

private theorem exists_mem_strided {α : Type} {nw : Nat} (hnw : 0 < nw) {l : List α} {x : α} (hx : x ∈ l) :
    ∃ i < nw, x ∈ strided nw i l := by
  obtain ⟨k, hk, rfl⟩ := List.getElem_of_mem hx
  refine ⟨k % nw, Nat.mod_lt k hnw, List.mem_map.mpr ⟨(l[k], k), ?_, rfl⟩⟩
  exact List.mem_filter.mpr ⟨List.mem_zipIdx_iff_getElem?.mpr (List.getElem?_eq_getElem hk), by simp⟩

variable {cfg}

theorem first_run_of_not_relational (hkind : is_relational cfg.type = false) : cfg.first_run = cfg := by
  simp [scan_config_t.first_run, hkind]

private theorem is_region_scan_of_not_relational (hkind : is_relational cfg.type = false) :
    cfg.is_region_scan = false := by
  rw [scan_config_t.is_region_scan, first_run_of_not_relational hkind]
  cases htype : cfg.type <;> simp_all [is_relational]

private theorem make_fastscan_of_off (hfast : cfg.fast = .off) : make_fastscan cfg = {} := by
  simp [make_fastscan, hfast]

variable {regions : List scan_region_t}

/-- The rows and the flag of a first scan that keeps no stash. -/
theorem first_scan_rows (exec : scan_exec_t) (hkind : is_relational cfg.type = false)
    (hregions : filter_regions cfg regions ≠ []) :
    let outs := first_scan_outs exec regions cfg
    let total := outs.flatMap worker_out_t.results
    (first_scan exec regions cfg).results =
        (total.take cfg.result_cap).mergeSort scan_result_t.precedes ∧
      (first_scan exec regions cfg).stats.truncated =
        (outs.any worker_out_t.truncated || decide (cfg.result_cap < total.length)) := by
  have hempty : (filter_regions cfg regions).isEmpty = false := by simpa using hregions
  simp only [first_scan, hempty, is_region_scan_of_not_relational hkind, merge_workers, Bool.false_eq_true,
    if_false, Bool.false_or, and_self]

variable {exec : scan_exec_t}

/-- A scan nobody stops: each worker takes its share of the regions. -/
theorem first_scan_outs_adds (hkind : is_relational cfg.type = false) (hfast : cfg.fast = .off)
    (hreadable : mem.Readable (filter_regions cfg regions)) (hsteady : exec.Steady mem)
    (haborted : ∀ i n, exec.aborted i n = false) :
    ∃ nw worker, 0 < nw ∧ nw ≤ worker_count exec cfg ∧
      first_scan_outs exec regions cfg = (List.range nw).map worker ∧
      ∀ i, Adds cfg.result_cap ((strided nw i (filter_regions cfg regions)).flatMap (region_hits cfg mem))
        ⟨[], false⟩ (worker i).rows := by
  unfold first_scan_outs
  simp only [first_run_of_not_relational hkind, is_region_scan_of_not_relational hkind,
    make_fastscan_of_off hfast]
  refine ⟨_, _, by omega, ?_, rfl, fun i => ?_⟩
  · have hcount : 0 < worker_count exec cfg := by
      unfold worker_count
      omega
    omega
  · exact adds_first_scan_worker cfg _ _ (hsteady.reads i) (hsteady.live i) (haborted i) _
      (fun reg hreg => hreadable reg (mem_strided hreg)) 0 {}

/-- A scan that is not truncated has taken every slot that no chunk border cuts. -/
theorem row_mem_first_scan (cfg : scan_config_t) (hkind : is_relational cfg.type = false) (hfast : cfg.fast = .off)
    (hreadable : mem.Readable (filter_regions cfg regions)) (hsteady : exec.Steady mem)
    (haborts : exec.AbortsWhenTruncated regions cfg)
    (hroom : (first_scan exec regions cfg).stats.truncated = false) {reg : scan_region_t}
    (hreg : reg ∈ filter_regions cfg regions) {row : scan_result_t} (hrow : row ∈ region_hits cfg mem reg) :
    row ∈ (first_scan exec regions cfg).results := by
  obtain ⟨hresults, hflag⟩ := first_scan_rows exec hkind (List.ne_nil_of_mem hreg)
  rw [hflag, Bool.or_eq_false_iff, List.any_eq_false, decide_eq_false_iff_not, Nat.not_lt] at hroom
  obtain ⟨hnone, htotal⟩ := hroom
  have haborted : ∀ i n, exec.aborted i n = false := by
    intro i n
    by_contra hset
    obtain ⟨out, hout, htruncated⟩ := haborts i n (by simpa using hset)
    exact hnone out hout htruncated
  obtain ⟨nw, worker, hnw, -, houts, hadds⟩ := first_scan_outs_adds hkind hfast hreadable hsteady haborted
  obtain ⟨i, hi, hshare⟩ := exists_mem_strided hnw hreg
  have hworker : worker i ∈ first_scan_outs exec regions cfg := by
    rw [houts]
    exact List.mem_map_of_mem (List.mem_range.mpr hi)
  have hopen : (worker i).truncated = false := by simpa using hnone _ hworker
  have hitems : (worker i).results = (strided nw i (filter_regions cfg regions)).flatMap (region_hits cfg mem) :=
    (hadds i).complete hopen
  rw [hresults, List.mem_mergeSort, List.take_of_length_le htotal, List.mem_flatMap]
  exact ⟨worker i, hworker, hitems ▸ List.mem_flatMap.mpr ⟨reg, hshare, hrow⟩⟩

/-- Whatever a first scan reports was found by the walk of some region. -/
theorem mem_first_scan (cfg : scan_config_t) (hkind : is_relational cfg.type = false) (hfast : cfg.fast = .off)
    (hreadable : mem.Readable (filter_regions cfg regions)) (hsteady : exec.Steady mem)
    (haborted : ∀ i n, exec.aborted i n = false) (hregions : filter_regions cfg regions ≠ [])
    {row : scan_result_t} (hrow : row ∈ (first_scan exec regions cfg).results) :
    ∃ reg ∈ filter_regions cfg regions, row ∈ region_hits cfg mem reg := by
  obtain ⟨nw, worker, -, -, houts, hadds⟩ := first_scan_outs_adds hkind hfast hreadable hsteady haborted
  rw [(first_scan_rows exec hkind hregions).1, List.mem_mergeSort] at hrow
  obtain ⟨out, hout, hrow⟩ := List.mem_flatMap.mp (List.mem_of_mem_take hrow)
  rw [houts] at hout
  obtain ⟨i, -, rfl⟩ := List.mem_map.mp hout
  rcases (hadds i).mem_of_mem hrow with hnone | hhit
  · cases hnone
  · obtain ⟨reg, hshare, hhit⟩ := List.mem_flatMap.mp hhit
    exact ⟨reg, mem_strided hshare, hhit⟩

private theorem strided_sublist {α : Type} (nw i : Nat) (l : List α) : (strided nw i l).Sublist l := by
  have hmap := (List.filter_sublist (l := l.zipIdx) (p := fun x => x.2 % nw = i)).map Prod.fst
  rw [List.zipIdx_map_fst] at hmap
  exact hmap

/-- With a cap above what all workers can find, nothing is truncated. -/
theorem first_scan_not_truncated (cfg : scan_config_t) (hkind : is_relational cfg.type = false) (hfast : cfg.fast = .off)
    (hreadable : mem.Readable (filter_regions cfg regions)) (hsteady : exec.Steady mem)
    (haborted : ∀ i n, exec.aborted i n = false) (hregions : filter_regions cfg regions ≠ [])
    (hcap : (worker_count exec cfg + 1) *
      ((filter_regions cfg regions).flatMap (region_hits cfg mem)).length < cfg.result_cap) :
    (first_scan exec regions cfg).stats.truncated = false := by
  obtain ⟨nw, worker, hnw, hcount, houts, hadds⟩ := first_scan_outs_adds hkind hfast hreadable hsteady haborted
  generalize hhits : ((filter_regions cfg regions).flatMap (region_hits cfg mem)).length = hits at hcap
  have hshare : ∀ i, ((strided nw i (filter_regions cfg regions)).flatMap (region_hits cfg mem)).length ≤ hits := by
    intro i
    rw [← hhits]
    exact ((strided_sublist nw i _).flatMap _).length_le
  have hopen : ∀ i, (worker i).truncated = false := by
    intro i
    apply (hadds i).room rfl
    have := hshare i
    rw [Nat.add_mul] at hcap
    simp only [List.length_nil]
    omega
  have hlen : ∀ i, (worker i).results.length ≤ hits := by
    intro i
    have hitems := (hadds i).complete (hopen i)
    simp only [worker_out_t.rows, List.nil_append] at hitems
    rw [hitems]
    exact hshare i
  have htotal : ((first_scan_outs exec regions cfg).flatMap worker_out_t.results).length ≤ nw * hits := by
    rw [houts, List.flatMap_map, List.length_flatMap]
    refine (List.sum_le_card_nsmul _ hits ?_).trans_eq (by simp)
    intro len hmem
    obtain ⟨i, -, rfl⟩ := List.mem_map.mp hmem
    exact hlen i
  have hbound : nw * hits ≤ worker_count exec cfg * hits := Nat.mul_le_mul_right hits hcount
  rw [(first_scan_rows exec hkind hregions).2, houts, Bool.or_eq_false_iff, List.any_eq_false, ← houts]
  constructor
  · intro out hout
    rw [houts] at hout
    obtain ⟨i, -, rfl⟩ := List.mem_map.mp hout
    simp [hopen i]
  · rw [Nat.add_mul] at hcap
    exact decide_eq_false (by omega)

end

/-- One machine thread over a memory that stands still. -/
def scan_exec_t.undisturbed (mem : memory_t) : scan_exec_t where
  hardware_concurrency := 1
  reader _ := mem.reader
  tok _ := ⟨fun _ => false⟩
  aborted _ _ := false
  stash_used _ _ := 0
  owner _ := 0
  cancelled := false

theorem scan_exec_t.undisturbed_steady (mem : memory_t) : (scan_exec_t.undisturbed mem).Steady mem where
  reads _ _ _ _ := rfl
  live _ _ := rfl

theorem scan_exec_t.undisturbed_aborts (mem : memory_t) (regions : List scan_region_t) (cfg : scan_config_t) :
    (scan_exec_t.undisturbed mem).AbortsWhenTruncated regions cfg :=
  fun _ _ hset => nomatch hset

private theorem length_run_hits_le (cfg : scan_config_t) (base : Nat) (data : List UInt8) :
    (run_hits cfg base data).length ≤ data.length * cfg.widths.length := by
  have hleast := cfg.least_pos
  have hslot : ∀ off, (slot_hits cfg base data off).length ≤ cfg.widths.length := by
    intro off
    rw [slot_hits, List.length_flatMap]
    refine (List.sum_le_card_nsmul _ 1 ?_).trans_eq (by simp)
    intro len hlen
    obtain ⟨w, -, rfl⟩ := List.mem_map.mp hlen
    unfold width_hit
    dsimp only
    split <;> simp
  calc (run_hits cfg base data).length
      ≤ (data.length + 1 - cfg.least) * cfg.widths.length := by
        rw [run_hits, List.length_flatMap]
        refine (List.sum_le_card_nsmul _ cfg.widths.length ?_).trans_eq (by simp)
        intro len hlen
        obtain ⟨off, -, rfl⟩ := List.mem_map.mp hlen
        exact hslot off
    _ ≤ data.length * cfg.widths.length := Nat.mul_le_mul_right _ (by omega)

theorem length_chunk_hits_le (cfg : scan_config_t) (mem : memory_t) (end_addr cursor : Nat) :
    (chunk_hits cfg mem end_addr cursor).length ≤ (end_addr - cursor) * cfg.widths.length := by
  fun_induction chunk_hits cfg mem end_addr cursor with
  | case1 cursor hmore want ih =>
    have hrun := length_run_hits_le cfg cursor (mem.bytes_at cursor want)
    rw [mem.length_bytes_at] at hrun
    have hsplit : end_addr - cursor = want + (end_addr - (cursor + want)) := by omega
    rw [List.length_append, hsplit, Nat.add_mul]
    exact Nat.add_le_add hrun ih
  | case2 => simp

private theorem chunk_hits_max_results (cfg : scan_config_t) (mem : memory_t) (max_results end_addr cursor : Nat) :
    chunk_hits { cfg with max_results } mem end_addr cursor = chunk_hits cfg mem end_addr cursor := by
  fun_induction chunk_hits cfg mem end_addr cursor with
  | case1 cursor hmore want ih =>
    rw [chunk_hits, if_pos hmore]
    exact congrArg _ ih
  | case2 cursor hdone => rw [chunk_hits, if_neg hdone]

private theorem region_hits_max_results (cfg : scan_config_t) (mem : memory_t) (max_results : Nat) :
    region_hits { cfg with max_results } mem = region_hits cfg mem :=
  funext fun _ => chunk_hits_max_results cfg mem max_results _ _

/-- A first scan takes every accepted slot exactly when no accepted slot is cut
by a chunk border of every region that holds it. -/
theorem first_scan_complete_iff (regions : List scan_region_t) (cfg : scan_config_t) (mem : memory_t)
    (hkind : is_relational cfg.type = false) (hfast : cfg.fast = .off)
    (hreadable : mem.Readable (filter_regions cfg regions)) :
    (∀ (exec : scan_exec_t) (max_results : Nat), exec.Steady mem →
      exec.AbortsWhenTruncated regions { cfg with max_results } →
      (first_scan exec regions { cfg with max_results }).stats.truncated = false →
      ∀ w ∈ cfg.widths, ∀ reg ∈ filter_regions cfg regions, ∀ a, reg.Holds a (value_size w) →
        cfg.Accepts mem w a → mem.row w a ∈ (first_scan exec regions { cfg with max_results }).results) ↔
    ∀ w ∈ cfg.widths, ∀ reg ∈ filter_regions cfg regions, ∀ a, reg.Holds a (value_size w) →
      cfg.Accepts mem w a →
        ∃ reg' ∈ filter_regions cfg regions, reg'.Holds a (value_size w) ∧
          cfg.SameChunk reg'.base a (value_size w) := by
  constructor
  · intro hcomplete w hw reg hreg a hholds haccepts
    let exec := scan_exec_t.undisturbed mem
    let hits := ((filter_regions cfg regions).flatMap (region_hits cfg mem)).length
    let max_results := (worker_count exec cfg + 1) * hits + 1
    let capped : scan_config_t := { cfg with max_results }
    have hsteady := scan_exec_t.undisturbed_steady mem
    have hregions := List.ne_nil_of_mem hreg
    have hcap : capped.result_cap = (worker_count exec cfg + 1) * hits + 1 := if_pos (Nat.succ_ne_zero _)
    have hroom : (first_scan exec regions capped).stats.truncated = false := by
      apply first_scan_not_truncated capped hkind hfast hreadable hsteady (fun _ _ => rfl) hregions
      rw [hcap, region_hits_max_results]
      exact Nat.lt_succ_self _
    have hrow := hcomplete exec max_results hsteady (scan_exec_t.undisturbed_aborts mem regions capped) hroom
      w hw reg hreg a hholds haccepts
    obtain ⟨reg', hreg', hhit⟩ := mem_first_scan capped hkind hfast hreadable hsteady (fun _ _ => rfl)
      hregions hrow
    rw [region_hits_max_results, mem_region_hits] at hhit
    obtain ⟨-, hholds', hsame, -⟩ := hhit
    exact ⟨reg', hreg', hholds', hsame⟩
  · intro hcells exec max_results hsteady haborts hroom w hw reg hreg a hholds haccepts
    obtain ⟨reg', hreg', hholds', hsame⟩ := hcells w hw reg hreg a hholds haccepts
    apply row_mem_first_scan { cfg with max_results } hkind hfast hreadable hsteady haborts hroom hreg'
    rw [region_hits_max_results, mem_region_hits]
    exact ⟨hw, hholds', hsame, rfl, haccepts⟩

/-- Single bytes are never cut: a scan for a byte misses none. -/
theorem first_scan_complete_single_bytes :
    let reg : scan_region_t :=
      { base := 0x10000, size := 8, protect := 0x04, type := kMemPrivate, in_user_space := by decide }
    let cfg : scan_config_t := { type := .exact_value, width := .u8, value1 := 2, chunk_bytes := 4 }
    let mem := planted 0x10003 [1, 2]
    ∀ (exec : scan_exec_t) (max_results : Nat), exec.Steady mem →
      exec.AbortsWhenTruncated [reg] { cfg with max_results } →
      (first_scan exec [reg] { cfg with max_results }).stats.truncated = false →
      ∀ w ∈ cfg.widths, ∀ reg' ∈ filter_regions cfg [reg], ∀ a, reg'.Holds a (value_size w) →
        cfg.Accepts mem w a → mem.row w a ∈ (first_scan exec [reg] { cfg with max_results }).results := by
  intro reg cfg mem
  apply (first_scan_complete_iff [reg] cfg mem rfl rfl (planted_readable _ _ _)).mpr
  intro w hw reg' hreg' a hholds _
  obtain rfl : w = .u8 := List.mem_singleton.mp hw
  exact ⟨reg', hreg', hholds, rfl⟩

/-- Eight readable bytes, walked in chunks of four for a word of two: the word at
the fourth byte lies in both chunks, and no row is returned for it. -/
theorem first_scan_misses_straddling_word :
    let reg : scan_region_t :=
      { base := 0x10000, size := 8, protect := 0x04, type := kMemPrivate, in_user_space := by decide }
    let cfg : scan_config_t := { type := .exact_value, width := .u16, value1 := 513, chunk_bytes := 4 }
    let mem := planted 0x10003 [1, 2]
    let exec := scan_exec_t.undisturbed mem
    is_relational cfg.type = false ∧ cfg.fast = .off ∧ filter_regions cfg [reg] = [reg] ∧
      mem.Readable [reg] ∧ exec.Steady mem ∧ (first_scan exec [reg] cfg).stats.truncated = false ∧
      reg.Holds 0x10003 (value_size .u16) ∧ cfg.Accepts mem .u16 0x10003 ∧
      ¬ ∃ row ∈ (first_scan exec [reg] cfg).results, row.address = 0x10003 := by
  intro reg cfg mem exec
  have hfilter : filter_regions cfg [reg] = [reg] := by
    simp [filter_regions, filter_region_whole cfg reg (by decide) rfl rfl (by decide)]
  have hreadable : mem.Readable (filter_regions cfg [reg]) := planted_readable _ _ _
  have hsteady := scan_exec_t.undisturbed_steady mem
  have hregions : filter_regions cfg [reg] ≠ [] := by simp [hfilter]
  refine ⟨rfl, rfl, hfilter, planted_readable _ _ _, hsteady, ?_, by decide, by decide, ?_⟩
  · apply first_scan_not_truncated cfg rfl rfl hreadable hsteady (fun _ _ => rfl) hregions
    have hlen := length_chunk_hits_le cfg mem 0x10008 0x10000
    have hbound : (worker_count exec cfg + 1) * (chunk_hits cfg mem 0x10008 0x10000).length ≤ 2 * 8 :=
      Nat.mul_le_mul_left _ hlen
    rw [hfilter, List.flatMap_singleton]
    exact hbound.trans_lt (by decide)
  · rintro ⟨row, hrow, haddress⟩
    obtain ⟨reg', hreg', hhit⟩ := mem_first_scan cfg rfl rfl hreadable hsteady (fun _ _ => rfl)
      hregions hrow
    rw [hfilter] at hreg'
    obtain rfl := List.mem_singleton.mp hreg'
    obtain ⟨hw, -, hsame, -⟩ := mem_region_hits.mp hhit
    obtain hw : row.width = .u16 := List.mem_singleton.mp hw
    rw [hw, haddress] at hsame
    revert hsame
    unfold scan_config_t.SameChunk
    decide

end slop.core.memory
