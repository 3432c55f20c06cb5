import ReverseSlop.Core.Memory.Memscan.Engine
import ReverseSlop.Core.Memory.Memscan.Rows

namespace slop.core.memory

open Capped

/-- The copies of a worker as a collector, which no count of them caps. -/
def worker_out_t.copies (out : worker_out_t) : Sink region_copy_t := ⟨out.stash, out.truncated⟩

/-- The runs that the chunk loop hands to a sink that is never full. -/
def chunk_runs (r : reader_t) (tok : cancel_token_t) (cfg : scan_config_t) (end_addr cursor n : Nat) :
    List detail.run_t × Nat :=
  if cursor < end_addr then
    if tok.cancelled n then ([], n + 1)
    else
      let want := min cfg.chunk (end_addr - cursor)
      let (runs, next) := detail.resilient_read r tok cursor want 4096 (n + 1)
      let (rest, last) := chunk_runs r tok cfg end_addr (cursor + want) next
      (runs ++ rest, last)
  else ([], n)
termination_by end_addr - cursor
decreasing_by
  have := cfg.chunk_pos
  omega

/-- The runs of a share of the regions. -/
def share_runs (r : reader_t) (tok : cancel_token_t) (aborted : Nat → Bool) (cfg : scan_config_t) :
    List scan_region_t → Nat → List detail.run_t
  | [], _ => []
  | reg :: rest, n =>
    if aborted n || tok.cancelled n then []
    else
      let (runs, next) := chunk_runs r tok cfg (reg.base + reg.size) reg.base (n + 1)
      runs ++ share_runs r tok aborted cfg rest next

/-- A part of what a worker collects that counters do not touch and that the cap
on its rows may close. -/
structure Collects {β : Type} (cap : Nat) (region_scan : Bool) (cfg : scan_config_t)
    (view : worker_out_t → Sink β) : Prop where
  full : ∀ out, (view out).full = out.truncated
  counter : ∀ out n, view { out with regions_scanned := n } = view out
  close : region_scan = false → ∀ out, cfg.result_cap ≤ out.results.length →
    cap ≤ (view out).items.length ∧ view { out with truncated := true } = ⟨(view out).items, true⟩

theorem collects_rows (cfg : scan_config_t) : Collects cfg.result_cap false cfg worker_out_t.rows where
  full _ := rfl
  counter _ _ := rfl
  close _ _ hcap := ⟨hcap, rfl⟩

theorem collects_copies (cfg : scan_config_t) : Collects 0 true cfg worker_out_t.copies where
  full _ := rfl
  counter _ _ := rfl
  close h := nomatch h

section

variable {β : Type} {cap : Nat} {region_scan : Bool} {cfg : scan_config_t} {view : worker_out_t → Sink β}
  {sink : worker_out_t → detail.run_t → worker_out_t} {f : detail.run_t → List β}

variable (view) in
private theorem adds_foldl (hsink : ∀ out run, Adds cap (f run) (view out) (view (sink out run))) (runs : List detail.run_t)
    (out : worker_out_t) : Adds cap (runs.flatMap f) (view out) (view (runs.foldl sink out)) := by
  induction runs generalizing out with
  | nil => exact .refl _ _
  | cons run rest ih =>
    rw [List.flatMap_cons, List.foldl_cons]
    exact (hsink out run).trans (ih _)

/-- The walk of a region collects from its runs, and as long as it is not
truncated it asks for the same reads. -/
theorem collects_walk_chunks (hview : Collects cap region_scan cfg view)
    (hsink : ∀ out run, Adds cap (f run) (view out) (view (sink out run))) (r : reader_t) (tok : cancel_token_t)
    (end_addr cursor n : Nat) (out : worker_out_t) :
    let runs := chunk_runs r tok cfg end_addr cursor n
    let walk := walk_chunks r tok cfg sink end_addr cursor n out
    Adds cap (runs.1.flatMap f) (view out) (view walk.1) ∧ (walk.1.truncated = false → walk.2 = runs.2) := by
  dsimp only
  fun_induction walk_chunks r tok cfg sink end_addr cursor n out with
  | case1 cursor n out hmore hcancel =>
    rw [chunk_runs, if_pos hmore, if_pos hcancel]
    exact ⟨.refl _ _, fun _ => rfl⟩
  | case2 cursor n out hmore hlive want runs next hread out' hfull =>
    rw [chunk_runs, if_pos hmore, if_neg hlive]
    dsimp only
    rw [hread, List.flatMap_append]
    have hadds := adds_foldl view hsink runs out
    exact ⟨hadds.stop ((hview.full out').trans hfull) _, fun hopen => absurd hfull (by simp [out', hopen])⟩
  | case3 cursor n out hmore hlive want runs next hread out' hopen ih =>
    rw [chunk_runs, if_pos hmore, if_neg hlive]
    dsimp only
    rw [hread, List.flatMap_append]
    exact ⟨(adds_foldl view hsink runs out).trans ih.1, ih.2⟩
  | case4 cursor n out hdone =>
    rw [chunk_runs, if_neg hdone]
    exact ⟨.refl _ _, fun _ => rfl⟩

/-- A worker of the first scan collects from the runs of its share. -/
theorem collects_first_scan_worker (hview : Collects cap region_scan cfg view)
    (hsink : ∀ out run, Adds cap (f run) (view out) (view (sink out run))) (r : reader_t) (tok : cancel_token_t)
    (aborted : Nat → Bool) (regions : List scan_region_t) (n : Nat) (out : worker_out_t) :
    Adds cap ((share_runs r tok aborted cfg regions n).flatMap f) (view out)
      (view (first_scan_worker r tok aborted cfg sink region_scan regions n out)) := by
  induction regions generalizing n out with
  | nil => exact .refl _ _
  | cons reg rest ih =>
    obtain ⟨hwalk, hnext⟩ := collects_walk_chunks hview hsink r tok (reg.base + reg.size) reg.base (n + 1) out
    simp only [first_scan_worker, share_runs]
    by_cases hfull : out.truncated = true
    · rw [hfull, Bool.true_or, Bool.true_or, if_pos rfl]
      exact (Adds.refl cap (view out)).stop ((hview.full out).trans hfull) _
    rw [Bool.not_eq_true] at hfull
    rw [hfull, Bool.false_or]
    by_cases hstop : (aborted n || tok.cancelled n) = true
    · rw [if_pos hstop, if_pos hstop]
      exact .refl _ _
    rw [if_neg hstop, if_neg hstop, List.flatMap_append, walk_region]
    generalize walk_chunks r tok cfg sink (reg.base + reg.size) reg.base (n + 1) out = walk at hwalk hnext ⊢
    dsimp only
    by_cases hcap : (!region_scan && decide (cfg.result_cap ≤ walk.1.results.length)) = true
    · rw [if_pos hcap]
      rw [Bool.and_eq_true, Bool.not_eq_true', decide_eq_true_eq] at hcap
      have hcounter := hview.counter walk.1 (walk.1.regions_scanned + 1)
      obtain ⟨hlen, hclosed⟩ := hview.close hcap.1 { walk.1 with regions_scanned := walk.1.regions_scanned + 1 } hcap.2
      rw [hcounter] at hlen hclosed
      rw [hclosed]
      exact hwalk.close hlen _
    rw [if_neg hcap]
    by_cases hopen : walk.1.truncated = false
    · rw [hnext hopen]
      refine hwalk.trans ?_
      rw [← hview.counter walk.1 (walk.1.regions_scanned + 1)]
      exact ih _ _
    · -- a truncated worker takes no further region
      rw [Bool.not_eq_false] at hopen
      have hstopped : ∀ k out', out'.truncated = true →
          first_scan_worker r tok aborted cfg sink region_scan rest k out' = out' := by
        intro k out' hout'
        cases rest with
        | nil => rfl
        | cons reg' rest' => simp [first_scan_worker, hout']
      rw [hstopped _ { walk.1 with regions_scanned := walk.1.regions_scanned + 1 } hopen,
        hview.counter walk.1 (walk.1.regions_scanned + 1)]
      exact hwalk.stop ((hview.full _).trans hopen) _

end

/-- The rows of a fresh run that is compared with the stored copy. -/
def copy_rows (cfg : scan_config_t) (fs : fastscan_t) (rc : region_copy_t) (run : detail.run_t) : List scan_result_t :=
  let old_off := run.addr - rc.base
  if rc.bytes.length < old_off then []
  else
    let comparable := min run.data.length (rc.bytes.length - old_off)
    run_rows cfg fs run.addr (run.data.take comparable) (some (rc.bytes.drop old_off))

/-- The rows of a share of the stash. -/
def stash_rows (r : reader_t) (tok : cancel_token_t) (aborted : Nat → Bool) (cfg : scan_config_t) (fs : fastscan_t) :
    List region_copy_t → Nat → List scan_result_t
  | [], _ => []
  | rc :: rest, n =>
    if aborted n || tok.cancelled n then []
    else
      let (runs, next) := detail.resilient_read r tok rc.base rc.bytes.length 4096 (n + 1)
      runs.flatMap (copy_rows cfg fs rc) ++ stash_rows r tok aborted cfg fs rest next

/-- The row that a stored row becomes, if the bytes there can be read and pass. -/
def kept_row (r : reader_t) (cfg : scan_config_t) (row : scan_result_t) (n : Nat) : List scan_result_t :=
  match r.read n row.address (value_size row.width) with
  | none => []
  | some data =>
    let bits := load_bits data (value_size row.width)
    if check_value cfg row.width bits row.bits then [⟨row.address, bits, row.width⟩] else []

def batch_rows (r : reader_t) (cfg : scan_config_t) : List scan_result_t → Nat → List scan_result_t
  | [], _ => []
  | row :: rest, n => kept_row r cfg row n ++ batch_rows r cfg rest (n + 1)

/-- The rows of the batches that a worker claims. -/
def claimed_rows (r : reader_t) (tok : cancel_token_t) (cfg : scan_config_t) :
    List (List scan_result_t) → Nat → List scan_result_t
  | [], _ => []
  | batch :: rest, n =>
    if tok.cancelled n then []
    else batch_rows r cfg batch (n + 1) ++ claimed_rows r tok cfg rest (n + 1 + batch.length)

section

variable (cfg : scan_config_t)

theorem adds_walk_sink_rows (fs : fastscan_t) (stash_used : Nat → Nat) (stash_budget : Nat) (out : worker_out_t)
    (run : detail.run_t) :
    Adds cfg.result_cap (run_rows cfg fs run.addr run.data none) out.rows
      (walk_sink cfg fs false stash_used stash_budget out run).rows :=
  adds_scan_run cfg fs run.addr run.data none
    { out.log_read run with bytes_scanned := out.bytes_scanned + run.data.length }

theorem adds_walk_sink_copies (fs : fastscan_t) (stash_used : Nat → Nat) (stash_budget : Nat) (out : worker_out_t)
    (run : detail.run_t) :
    Adds 0 [(⟨run.addr, run.data⟩ : region_copy_t)] out.copies
      (walk_sink cfg fs true stash_used stash_budget out run).copies := by
  unfold walk_sink
  dsimp only
  rw [if_pos rfl]
  split
  · exact ⟨⟨[], List.nil_sublist _, by simp [worker_out_t.copies, worker_out_t.log_read]⟩, fun h => (nomatch h),
      fun _ => rfl, fun _ hlen => absurd hlen (Nat.not_lt_zero _)⟩
  · exact ⟨⟨_, .refl _, rfl⟩, fun _ => rfl, id, fun h _ => h⟩

private theorem adds_stash_sink (fs : fastscan_t) (rc : region_copy_t) (out : worker_out_t) (run : detail.run_t) :
    Adds cfg.result_cap (copy_rows cfg fs rc run) out.rows (stash_sink cfg fs rc out run).rows := by
  unfold stash_sink copy_rows
  dsimp only
  split
  · exact .refl _ _
  · split
    · next hnone =>
      have hshort : (run.data.take 0).length < cfg.least := cfg.least_pos
      rw [hnone, run_rows, if_pos hshort]
      exact .refl _ _
    · have hrun := adds_scan_run cfg fs run.addr
        (run.data.take (min run.data.length (rc.bytes.length - (run.addr - rc.base))))
        (some (rc.bytes.drop (run.addr - rc.base)))
        { out.log_read run with
          bytes_scanned := out.bytes_scanned + min run.data.length (rc.bytes.length - (run.addr - rc.base)) }
      split
      · next hcap => exact (List.append_nil (run_rows cfg fs _ _ _)) ▸ hrun.close hcap []
      · exact hrun

theorem adds_stash_worker (fs : fastscan_t) (r : reader_t) (tok : cancel_token_t) (aborted : Nat → Bool)
    (stash : List region_copy_t) (n : Nat) (out : worker_out_t) :
    Adds cfg.result_cap (stash_rows r tok aborted cfg fs stash n) out.rows
      (stash_worker r tok aborted cfg fs stash n out).rows := by
  induction stash generalizing n out with
  | nil => exact .refl _ _
  | cons rc rest ih =>
    simp only [stash_worker, stash_rows]
    by_cases hstop : (aborted n || tok.cancelled n) = true
    · rw [if_pos hstop, if_pos hstop]
      exact .refl _ _
    rw [if_neg hstop, if_neg hstop]
    have hruns := adds_foldl worker_out_t.rows (adds_stash_sink cfg fs rc)
      (detail.resilient_read r tok rc.base rc.bytes.length 4096 (n + 1)).1 out
    split
    · next hfull => exact hruns.stop hfull _
    · exact hruns.trans (ih _ _)

private theorem adds_list_batch (r : reader_t) (batch : List scan_result_t) (n : Nat) (out : worker_out_t) :
    let step := list_batch r cfg batch n out
    Adds cfg.result_cap (batch_rows r cfg batch n) out.rows step.1.rows ∧
      (step.2.2 = true → step.1.truncated = true) ∧ (step.2.2 = false → step.2.1 = n + batch.length) := by
  induction batch generalizing n out with
  | nil => exact ⟨.refl _ _, fun h => absurd h Bool.false_ne_true, fun _ => rfl⟩
  | cons row rest ih =>
    have hnext : n + (rest.length + 1) = n + 1 + rest.length := by omega
    simp only [list_batch, batch_rows, kept_row, List.length_cons, hnext]
    cases r.read n row.address (value_size row.width) with
    | none => exact ih (n + 1) out
    | some data =>
      dsimp only
      let logged := (out.log_read ⟨row.address, data⟩).count_slot
      by_cases hcheck : check_value cfg row.width (load_bits data (value_size row.width)) row.bits = true
      · obtain ⟨hpush, hflag⟩ := adds_push_result cfg logged
          ⟨row.address, load_bits data (value_size row.width), row.width⟩
        rw [if_pos hcheck, if_pos hcheck]
        split
        · next hfull => exact ⟨hpush.stop (hflag hfull) _, fun _ => hflag hfull, fun h => absurd h.symm Bool.false_ne_true⟩
        · obtain ⟨hrest, hend⟩ := ih (n + 1) (logged.push_result cfg.result_cap
            ⟨row.address, load_bits data (value_size row.width), row.width⟩).1
          exact ⟨hpush.trans hrest, hend⟩
      · rw [if_neg hcheck, if_neg hcheck]
        exact ih (n + 1) logged

theorem adds_list_worker (r : reader_t) (tok : cancel_token_t) (batches : List (List scan_result_t)) (n : Nat)
    (out : worker_out_t) :
    Adds cfg.result_cap (claimed_rows r tok cfg batches n) out.rows (list_worker r tok cfg batches n out).rows := by
  induction batches generalizing n out with
  | nil => exact .refl _ _
  | cons batch rest ih =>
    obtain ⟨hbatch, hfull, hnext⟩ := adds_list_batch cfg r batch (n + 1) out
    unfold list_worker claimed_rows
    split
    · exact .refl _ _
    · split
      · next hstep =>
        rw [hstep] at hbatch hfull
        exact hbatch.stop (hfull rfl) _
      · next hstep =>
        rw [hstep] at hbatch hnext
        rw [← hnext rfl]
        exact hbatch.trans (ih _ _)

end

end slop.core.memory
