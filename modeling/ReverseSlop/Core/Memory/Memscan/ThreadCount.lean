import ReverseSlop.Core.Memory.Memscan.Tidy

namespace slop.core.memory

open Capped detail

/-- What a first scan finds over a memory that stands still. -/
def first_rows (cfg : scan_config_t) (mem : memory_t) (regions : List scan_region_t) : List scan_result_t :=
  (filter_regions cfg regions).flatMap fun reg =>
    (region_runs cfg.first_run mem reg).flatMap fun run =>
      run_rows cfg.first_run (make_fastscan cfg) run.addr run.data none

/-- What it copies when it keeps no rows. -/
def first_copies (cfg : scan_config_t) (mem : memory_t) (regions : List scan_region_t) : List region_copy_t :=
  (filter_regions cfg regions).flatMap fun reg =>
    (region_runs cfg.first_run mem reg).flatMap fun run => [⟨run.addr, run.data⟩]

/-- A first scan by nobody in particular. -/
def first_found (cfg : scan_config_t) (mem : memory_t) (regions : List scan_region_t) : memscan_t :=
  if cfg.is_region_scan then
    let stash := (first_copies cfg mem regions).mergeSort fun a b => a.base ≤ b.base
    { stash, region_scan_active := !stash.isEmpty }
  else
    let results := (first_rows cfg mem regions).mergeSort scan_result_t.precedes
    { results, address_list := !results.isEmpty }

/-- What is left of the rows or the copies of an earlier scan. -/
def next_rows (cfg : scan_config_t) (mem : memory_t) (m : memscan_t) : List scan_result_t :=
  if m.region_scan_active then m.stash.flatMap (compared_rows cfg (make_fastscan cfg) mem)
  else m.results.flatMap fun row => kept_row mem.reader cfg row 0

/-- A further scan by nobody in particular. -/
def next_found (cfg : scan_config_t) (mem : memory_t) (m : memscan_t) : memscan_t :=
  if (!m.region_scan_active && !m.address_list) || cfg.type = .unknown_initial then m
  else
    let results := (next_rows cfg mem m).mergeSort scan_result_t.precedes
    { results, stash := if m.region_scan_active then [] else m.stash, address_list := !results.isEmpty }

/-- The states have the same rows and the same copies, and take the next scan alike. -/
structure memscan_t.Agrees (m m' : memscan_t) : Prop where
  results : m.results = m'.results
  stash : m.stash = m'.stash
  region_scan_active : m.region_scan_active = m'.region_scan_active
  address_list : m.address_list = m'.address_list

/-- A first scan of a memory that does not change is neither truncated nor cancelled. -/
structure FirstThrough (exec : scan_exec_t) (mem : memory_t) (regions : List scan_region_t) (cfg : scan_config_t) :
    Prop where
  steady : exec.Steady mem
  aborts : exec.AbortsWhenTruncated regions cfg
  complete : (first_scan exec regions cfg).stats.truncated = false

/-- Nor is a further one. -/
structure NextThrough (exec : scan_exec_t) (mem : memory_t) (cfg : scan_config_t) (m : memscan_t) : Prop where
  steady : exec.Steady mem
  aborts : m.region_scan_active = true → ∀ i n, exec.aborted i n = true →
    ∃ out ∈ stash_outs exec cfg m.stash, out.truncated = true
  complete : (next_scan exec cfg m).2.stats.truncated = false

section

variable {m m' m'' : memscan_t}

private theorem memscan_t.Agrees.symm (h : m.Agrees m') : m'.Agrees m :=
  ⟨h.results.symm, h.stash.symm, h.region_scan_active.symm, h.address_list.symm⟩

private theorem memscan_t.Agrees.trans (h : m.Agrees m') (h' : m'.Agrees m'') : m.Agrees m'' :=
  ⟨h.results.trans h'.results, h.stash.trans h'.stash, h.region_scan_active.trans h'.region_scan_active,
    h.address_list.trans h'.address_list⟩

/-- The next scan looks at nothing else. -/
theorem next_found_congr (cfg : scan_config_t) (mem : memory_t) (h : m.Agrees m') :
    (next_found cfg mem m).Agrees (next_found cfg mem m') := by
  have hrows : next_rows cfg mem m = next_rows cfg mem m' := by
    unfold next_rows
    rw [h.results, h.stash, h.region_scan_active]
  unfold next_found
  rw [h.region_scan_active, h.address_list, h.stash, hrows]
  split
  · exact h
  · exact ⟨rfl, rfl, rfl, rfl⟩

end

section

variable {cfg : scan_config_t} {exec : scan_exec_t} {regions : List scan_region_t} {mem : memory_t} {m : memscan_t}

/-- The flag of a first scan is the one of its merge. -/
theorem first_scan_truncated (exec : scan_exec_t) (hregions : (filter_regions cfg regions).isEmpty = false) :
    (first_scan exec regions cfg).stats.truncated =
      (merge_workers (first_scan_outs exec regions cfg) (if cfg.is_region_scan then 0 else cfg.result_cap)
        { regions := (filter_regions cfg regions).length }).2.truncated := by
  cases hmode : cfg.is_region_scan <;> simp [first_scan, hregions, hmode]

/-- Whatever the number of workers, a first scan that goes through finds what there is. -/
theorem first_scan_agrees (hapart : regions.Pairwise scan_region_t.Apart) (h : FirstThrough exec mem regions cfg) :
    (first_scan exec regions cfg).Agrees (first_found cfg mem regions) := by
  have haddresses := filter_regions_addresses cfg hapart
  cases hempty : (filter_regions cfg regions).isEmpty with
  | true =>
    have hnone : filter_regions cfg regions = [] := List.isEmpty_iff.mp hempty
    have hrows : first_rows cfg mem regions = [] := by rw [first_rows, hnone, List.flatMap_nil]
    have hcopies : first_copies cfg mem regions = [] := by rw [first_copies, hnone, List.flatMap_nil]
    unfold first_scan first_found
    simp only [hempty, if_true, hrows, hcopies, List.mergeSort_nil]
    split <;> exact ⟨rfl, rfl, rfl, rfl⟩
  | false =>
    have hroom := h.complete
    rw [first_scan_truncated exec hempty] at hroom
    obtain ⟨hopen, hmerged⟩ := merge_workers_complete hroom
    have haborted : ∀ i n, exec.aborted i n = false := by
      intro i n
      by_contra hset
      obtain ⟨out, hout, htruncated⟩ := h.aborts i n (by simpa using hset)
      simp [hopen out hout] at htruncated
    cases hmode : cfg.is_region_scan with
    | true =>
      obtain ⟨hview, hsink⟩ := collects_first_copies hmode
      have hperm := first_scan_outs_perm hview rfl hsink h.steady haborted hopen
      have hplaces := Shares.nodup_of_subperm (first_scan_outs_places exec regions hmode) haddresses
      have hsorted := mergeSort_copies hplaces (first_scan_outs_filled exec regions hmode) hperm
      have hstash : (first_scan exec regions cfg).stash = (first_found cfg mem regions).stash := by
        rw [first_scan_stash exec regions hempty hmode, first_found, hmode, if_pos rfl]
        exact hsorted
      unfold first_scan first_found at hstash ⊢
      simp only [hempty, hmode, Bool.false_eq_true, if_false, if_true] at hstash ⊢
      exact ⟨rfl, hstash, by rw [hstash], rfl⟩
    | false =>
      obtain ⟨hview, hsink⟩ := collects_first_rows hmode
      have hperm := first_scan_outs_perm hview rfl hsink h.steady haborted hopen
      have hkeys := Shares.nodup_of_subperm (first_scan_outs_keys exec regions hmode) (keys_nodup cfg haddresses)
      have hsorted := mergeSort_rows hkeys hperm
      rw [hmode, if_neg Bool.false_ne_true, hsorted] at hmerged
      simp only [first_scan, first_found, hempty, hmode, Bool.false_eq_true, if_false, hmerged]
      exact ⟨rfl, rfl, rfl, rfl⟩

/-- Nor does it matter in a further scan. -/
theorem next_scan_agrees (htidy : m.Tidy) (h : NextThrough exec mem cfg m) :
    (next_scan exec cfg m).2.Agrees (next_found cfg mem m) := by
  have hroom := h.complete
  unfold next_scan next_found at *
  by_cases hnone : (!m.region_scan_active && !m.address_list) = true
  · rw [hnone, Bool.true_or, if_pos rfl, if_pos rfl]
    exact ⟨rfl, rfl, rfl, rfl⟩
  by_cases htype : cfg.type = .unknown_initial
  · rw [if_neg hnone, if_pos htype, decide_eq_true htype, Bool.or_true, if_pos rfl]
    exact ⟨rfl, rfl, rfl, rfl⟩
  have hscan : ¬ (!m.region_scan_active && !m.address_list || decide (cfg.type = .unknown_initial)) = true := by
    rw [Bool.or_eq_true, decide_eq_true_eq, not_or]
    exact ⟨hnone, htype⟩
  rw [if_neg hnone, if_neg htype] at hroom ⊢
  rw [if_neg hscan]
  dsimp only at hroom ⊢
  obtain ⟨hopen, hmerged⟩ := merge_workers_complete hroom
  have hsorted : (merge_workers (if m.region_scan_active then stash_outs exec cfg m.stash else list_outs exec cfg m.results)
      cfg.result_cap { regions := m.stats.regions }).1 = (next_rows cfg mem m).mergeSort scan_result_t.precedes := by
    rw [hmerged]
    unfold next_rows
    cases hactive : m.region_scan_active with
    | true =>
      rw [hactive, if_pos rfl] at hopen
      have haborted : ∀ i n, exec.aborted i n = false := by
        intro i n
        by_contra hset
        obtain ⟨out, hout, htruncated⟩ := h.aborts hactive i n (by simpa using hset)
        simp [hopen out hout] at htruncated
      exact mergeSort_rows (Shares.nodup_of_subperm (stash_outs_keys exec cfg m.stash) (keys_nodup cfg htidy.places))
        (stash_outs_perm h.steady haborted hopen)
    | false =>
      rw [hactive, if_neg Bool.false_ne_true] at hopen
      exact mergeSort_rows (Shares.nodup_of_subperm (list_outs_keys exec cfg m.results) htidy.rows)
        (list_outs_perm h.steady hopen)
  rw [hsorted]
  exact ⟨rfl, rfl, rfl, rfl⟩

end

section

variable (cfg : scan_config_t) (threads : Nat)

private theorem offset_rows_threads (fs : fastscan_t) (base : Nat) (data : List UInt8) (old : Option (List UInt8)) (last off : Nat) :
    offset_rows { cfg with threads } fs base data old last off = offset_rows cfg fs base data old last off := by
  fun_induction offset_rows cfg fs base data old last off with
  | case1 off hle ih =>
    rw [offset_rows, if_pos hle, ih]
    rfl
  | case2 off hgt => rw [offset_rows, if_neg hgt]

private theorem run_rows_threads (fs : fastscan_t) (base : Nat) (data : List UInt8) (old : Option (List UInt8)) :
    run_rows { cfg with threads } fs base data old = run_rows cfg fs base data old := by
  unfold run_rows
  rw [offset_rows_threads]
  rfl

private theorem chunk_runs_threads (r : reader_t) (tok : cancel_token_t) (end_addr cursor n : Nat) :
    chunk_runs r tok { cfg with threads } end_addr cursor n = chunk_runs r tok cfg end_addr cursor n := by
  fun_induction chunk_runs r tok cfg end_addr cursor n with
  | case1 cursor n hmore hcancel => rw [chunk_runs, if_pos hmore, if_pos hcancel]
  | case2 cursor n hmore hlive want runs next hread rest last hrest ih =>
    rw [chunk_runs, if_pos hmore, if_neg hlive]
    have hwant : min ({ cfg with threads } : scan_config_t).chunk (end_addr - cursor) = want := rfl
    dsimp only
    rw [hwant, hread, ih, hrest]
  | case3 cursor n hdone => rw [chunk_runs, if_neg hdone]

private theorem first_run_threads : ({ cfg with threads } : scan_config_t).first_run = { cfg.first_run with threads } := by
  unfold scan_config_t.first_run
  split <;> rfl

private theorem first_found_threads (mem : memory_t) (regions : List scan_region_t) :
    first_found { cfg with threads } mem regions = first_found cfg mem regions := by
  have hruns : region_runs { cfg.first_run with threads } mem = region_runs cfg.first_run mem :=
    funext fun reg => congrArg Prod.fst (chunk_runs_threads _ _ _ _ _ _ _)
  have hmode : ({ cfg with threads } : scan_config_t).is_region_scan = cfg.is_region_scan := by
    unfold scan_config_t.is_region_scan
    rw [first_run_threads]
  have hrows : first_rows { cfg with threads } mem regions = first_rows cfg mem regions := by
    unfold first_rows
    rw [first_run_threads, hruns]
    simp only [run_rows_threads]
    rfl
  have hcopies : first_copies { cfg with threads } mem regions = first_copies cfg mem regions := by
    unfold first_copies
    rw [first_run_threads, hruns]
    rfl
  unfold first_found
  rw [hmode, hrows, hcopies]

private theorem next_found_threads (mem : memory_t) (m : memscan_t) :
    next_found { cfg with threads } mem m = next_found cfg mem m := by
  have hcopy : copy_rows { cfg with threads } = copy_rows cfg := by
    funext fs rc run
    unfold copy_rows
    simp only [run_rows_threads]
  have hcompared : compared_rows { cfg with threads } = compared_rows cfg := by
    funext fs mem rc
    unfold compared_rows
    rw [hcopy]
  have hrows : next_rows { cfg with threads } mem m = next_rows cfg mem m := by
    unfold next_rows
    rw [hcompared]
    rfl
  unfold next_found
  rw [hrows]

end

/-- The state was left by a first scan of the regions and some further ones, whatever became of each. -/
def Reached (regions : List scan_region_t) (m : memscan_t) : Prop :=
  ∃ exec cfg scans, m = session exec regions cfg scans

/-- The rows of a scan are the same for all thread counts and all ways to hand out the work, and so is all that the
next scan starts from. -/
theorem scans_thread_independent (regions : List scan_region_t) (hapart : regions.Pairwise scan_region_t.Apart) :
    (∀ (cfg : scan_config_t) (threads threads' : Nat) (mem : memory_t) (exec exec' : scan_exec_t),
      FirstThrough exec mem regions { cfg with threads } →
      FirstThrough exec' mem regions { cfg with threads := threads' } →
      (first_scan exec regions { cfg with threads }).Agrees (first_scan exec' regions { cfg with threads := threads' })) ∧
    ∀ before before', Reached regions before → Reached regions before' → before.Agrees before' →
      ∀ (cfg : scan_config_t) (threads threads' : Nat) (mem : memory_t) (exec exec' : scan_exec_t),
        NextThrough exec mem { cfg with threads } before →
        NextThrough exec' mem { cfg with threads := threads' } before' →
        (next_scan exec { cfg with threads } before).2.Agrees (next_scan exec' { cfg with threads := threads' } before').2 := by
  constructor
  · intro cfg threads threads' mem exec exec' h h'
    have hfirst := first_scan_agrees hapart h
    have hfirst' := first_scan_agrees hapart h'
    rw [first_found_threads] at hfirst hfirst'
    exact hfirst.trans hfirst'.symm
  · rintro before before' ⟨exec₀, cfg₀, scans, rfl⟩ ⟨exec₀', cfg₀', scans', rfl⟩ hagrees cfg threads threads' mem exec exec' h h'
    have hnext := next_scan_agrees (session_tidy hapart exec₀ cfg₀ scans) h
    have hnext' := next_scan_agrees (session_tidy hapart exec₀' cfg₀' scans') h'
    rw [next_found_threads] at hnext hnext'
    exact hnext.trans ((next_found_congr cfg mem hagrees).trans hnext'.symm)

/-- Two regions, and a memory with a 2 in each. -/
def two_regions : List scan_region_t :=
  [{ base := 0x10000, size := 32, protect := 0x04, type := kMemPrivate, in_user_space := by decide },
    { base := 0x20000, size := 32, protect := 0x04, type := kMemPrivate, in_user_space := by decide }]

def two_twos : memory_t := fun a => some (if a = 0x10003 ∨ a = 0x20005 then 2 else 0)

/-- A scan of two rows by workers with room for them. -/
private theorem next_scan_through {exec : scan_exec_t} {cfg : scan_config_t} {m : memscan_t} {rows : List scan_result_t}
    (hrows : m.results = rows) (hactive : m.region_scan_active = false) (hlist : m.address_list = true)
    (htype : cfg.type = .exact_value) (hopen : (list_outs exec cfg rows).any worker_out_t.truncated = false)
    (hroom : ((list_outs exec cfg rows).flatMap worker_out_t.results).length ≤ cfg.result_cap) :
    (next_scan exec cfg m).2.stats.truncated = false := by
  rw [List.length_flatMap] at hroom
  simpa [next_scan, merge_workers, hrows, hactive, hlist, htype, hopen] using hroom

/-- One thread, and two, of which each walks a region, find the same; and so do one thread and eight, of which the
fourth takes the rows, when they look again. -/
theorem two_regions_thread_independent :
    let cfg : scan_config_t := { type := .exact_value, width := .u8, value1 := 2 }
    let exec := scan_exec_t.undisturbed two_twos
    let one := first_scan exec two_regions { cfg with threads := 1 }
    let two := first_scan exec two_regions { cfg with threads := 2 }
    one.Agrees two ∧ (next_scan exec { cfg with threads := 1 } one).2.Agrees
      (next_scan { exec with owner := fun _ => 3 } { cfg with threads := 8 } two).2 := by
  intro cfg exec one two
  have hapart : two_regions.Pairwise scan_region_t.Apart := by
    refine List.pairwise_pair.mpr fun x _ hlt hle => ?_
    dsimp only at hlt hle
    omega
  obtain ⟨hfirst, hnext⟩ := scans_thread_independent two_regions hapart
  have hsteady := scan_exec_t.undisturbed_steady two_twos
  have hagrees : one.Agrees two :=
    hfirst cfg 1 2 two_twos exec exec ⟨hsteady, scan_exec_t.undisturbed_aborts _ _ _, by decide +kernel⟩
      ⟨hsteady, scan_exec_t.undisturbed_aborts _ _ _, by decide +kernel⟩
  have hfound : ((first_scan_outs exec two_regions { cfg with threads := 2 }).flatMap worker_out_t.results).take
      ({ cfg with threads := 2 } : scan_config_t).result_cap = [⟨0x10003, 2, .u8⟩, ⟨0x20005, 2, .u8⟩] := by
    decide +kernel
  have hmerged : two.results = (((first_scan_outs exec two_regions { cfg with threads := 2 }).flatMap
      worker_out_t.results).take ({ cfg with threads := 2 } : scan_config_t).result_cap).mergeSort
        scan_result_t.precedes := rfl
  have htwo : two.results = [⟨0x10003, 2, .u8⟩, ⟨0x20005, 2, .u8⟩] := by
    rw [hmerged, hfound]
    exact List.mergeSort_of_pairwise (by decide)
  have hone : one.results = [⟨0x10003, 2, .u8⟩, ⟨0x20005, 2, .u8⟩] := hagrees.results.trans htwo
  have hlist : two.address_list = !two.results.isEmpty := rfl
  rw [htwo] at hlist
  refine ⟨hagrees, hnext one two ⟨exec, _, [], rfl⟩ ⟨exec, _, [], rfl⟩ hagrees cfg 1 8 two_twos exec _
    ⟨hsteady, fun _ _ _ hset => absurd hset Bool.false_ne_true, ?_⟩
    ⟨⟨fun _ _ _ _ => rfl, fun _ _ => rfl⟩, fun _ _ _ hset => absurd hset Bool.false_ne_true, ?_⟩⟩
  · exact next_scan_through hone rfl (hagrees.address_list.trans hlist) rfl (by decide +kernel) (by decide +kernel)
  · exact next_scan_through htwo rfl hlist rfl (by decide +kernel) (by decide +kernel)

end slop.core.memory
