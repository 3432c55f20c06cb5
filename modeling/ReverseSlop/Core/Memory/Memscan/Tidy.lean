import ReverseSlop.Core.Memory.Memscan.Places
import ReverseSlop.Core.Memory.Memscan.Session

namespace slop.core.memory

open Capped detail

private theorem value_width_t.index_injective {w w' : value_width_t} (h : w.index = w'.index) : w = w' := by
  cases w <;> cases w' <;> first | rfl | cases h

private theorem scan_result_t.precedes_iff {a b : scan_result_t} :
    a.precedes b = true ↔ a.address < b.address ∨ a.address = b.address ∧ a.width.index ≤ b.width.index := by
  unfold precedes
  split
  · rw [decide_eq_true_eq]
    omega
  · rw [decide_eq_true_eq]
    omega

/-- The order of the rows leaves open only which of two rows with one key comes first. -/
theorem scan_result_t.key_eq_of_precedes (a b : scan_result_t) (hab : a.precedes b = true) (hba : b.precedes a = true) :
    a.key = b.key := by
  rw [precedes_iff] at hab hba
  have haddress : a.address = b.address := by omega
  have hindex : a.width.index = b.width.index := by omega
  exact Prod.ext haddress (value_width_t.index_injective hindex)

/-- Rows with distinct keys are merged in one way only. -/
theorem mergeSort_rows {l l' : List scan_result_t} (hkeys : (l.map scan_result_t.key).Nodup) (hperm : l.Perm l') :
    l.mergeSort scan_result_t.precedes = l'.mergeSort scan_result_t.precedes := by
  apply Shares.mergeSort_eq_of_perm _ _ scan_result_t.key_eq_of_precedes hkeys hperm
  · intro a b c hab hbc
    rw [scan_result_t.precedes_iff] at *
    omega
  · intro a b
    rw [Bool.or_eq_true, scan_result_t.precedes_iff, scan_result_t.precedes_iff]
    omega

section

variable {outs : List worker_out_t} {cap : Nat} {st : scan_stats_t}

variable (cap st) in
private theorem merge_workers_keys {keys : List (Nat × value_width_t)} (hnodup : keys.Nodup)
    (hkeys : ((outs.flatMap worker_out_t.results).map scan_result_t.key).Subperm keys) :
    ((merge_workers outs cap st).1.map scan_result_t.key).Nodup := by
  have htotal := Shares.nodup_of_subperm hkeys hnodup
  have hsorted := (List.mergeSort_perm ((outs.flatMap worker_out_t.results).take cap) scan_result_t.precedes).map
    scan_result_t.key
  exact hsorted.nodup_iff.mpr (htotal.sublist ((List.take_sublist cap _).map _))

/-- A merge that is not truncated has all rows of all workers. -/
theorem merge_workers_complete (hroom : (merge_workers outs cap st).2.truncated = false) :
    (∀ out ∈ outs, out.truncated = false) ∧
      (merge_workers outs cap st).1 = (outs.flatMap worker_out_t.results).mergeSort scan_result_t.precedes := by
  unfold merge_workers at hroom ⊢
  simp only [Bool.or_eq_false_iff, List.any_eq_false, decide_eq_false_iff_not, Nat.not_lt, Bool.not_eq_true] at hroom
  obtain ⟨⟨-, hopen⟩, hlen⟩ := hroom
  refine ⟨hopen, ?_⟩
  dsimp only
  rw [List.take_of_length_le hlen]

end

/-- No address lies in both regions. -/
def scan_region_t.Apart (a b : scan_region_t) : Prop :=
  ∀ x, a.base ≤ x → x < a.base + a.size → b.base ≤ x → ¬ x < b.base + b.size

private theorem filter_region_bounds {cfg : scan_config_t} {reg reg' : scan_region_t} (h : filter_region cfg reg = some reg') :
    reg.base ≤ reg'.base ∧ reg'.base + reg'.size ≤ reg.base + reg.size := by
  unfold filter_region at h
  split at h
  · cases h
  · split at h
    · cases h
    · next rbase rend hclip =>
      have hbounds := clip_region_bounds hclip
      split at h
      · cases h
        dsimp only
        omega
      · cases h

/-- The scanned places are places of the regions, each once. -/
theorem filter_regions_addresses (cfg : scan_config_t) {regions : List scan_region_t}
    (hapart : regions.Pairwise scan_region_t.Apart) :
    ((filter_regions cfg regions).flatMap scan_region_t.addresses).Nodup := by
  have hall : (regions.flatMap scan_region_t.addresses).Nodup := by
    refine List.nodup_flatMap.mpr ⟨fun reg _ => List.nodup_range', hapart.imp fun {a b} hab x hxa hxb => ?_⟩
    rw [scan_region_t.addresses, List.mem_range'_1] at hxa hxb
    exact hab x hxa.1 hxa.2 hxb.1 hxb.2
  refine hall.sublist ?_
  clear hall hapart
  induction regions with
  | nil => exact .refl _
  | cons reg rest ih =>
    rw [filter_regions, List.filterMap_cons, List.flatMap_cons]
    split
    · exact ih.trans (List.sublist_append_right _ _)
    · next reg' hfilter =>
      obtain ⟨hlo, hhi⟩ := filter_region_bounds hfilter
      rw [List.flatMap_cons]
      exact (Shares.range'_sublist hlo (by omega)).append ih

/-- The keys tell the rows apart, and no two copies share a place. -/
structure memscan_t.Tidy (m : memscan_t) : Prop where
  rows : (m.results.map scan_result_t.key).Nodup
  places : (m.stash.flatMap region_copy_t.addresses).Nodup
  filled : ∀ rc ∈ m.stash, rc.bytes ≠ []

section

variable {β : Type} {cap : Nat} {cfg : scan_config_t} {view : worker_out_t → Sink β} {f : run_t → List β}
  {exec : scan_exec_t} {regions : List scan_region_t} {mem : memory_t}

/-- What the workers of a first scan have to do with the runs of their shares. -/
theorem first_scan_outs_collects (exec : scan_exec_t) (regions : List scan_region_t)
    (hview : Collects cap cfg.is_region_scan cfg.first_run view) (hempty : view {} = ⟨[], false⟩)
    (hsink : ∀ used budget out run, Adds cap (f run) (view out)
      (view (walk_sink cfg.first_run (make_fastscan cfg) cfg.is_region_scan used budget out run))) :
    ∃ nw worker, 0 < nw ∧ first_scan_outs exec regions cfg = (List.range nw).map worker ∧
      ∀ i, Adds cap ((share_runs (exec.reader i) (exec.tok i) (exec.aborted i) cfg.first_run
        (Shares.share id nw i (filter_regions cfg regions)) 0).flatMap f) ⟨[], false⟩ (view (worker i)) := by
  refine ⟨_, _, Nat.lt_of_lt_of_le Nat.one_pos (Nat.le_max_left 1 _), rfl, fun i => ?_⟩
  rw [← hempty]
  exact collects_first_scan_worker hview (hsink _ _) _ _ _ _ _ _

private theorem first_scan_outs_subperm {γ : Type} (exec : scan_exec_t) (regions : List scan_region_t)
    (hview : Collects cap cfg.is_region_scan cfg.first_run view) (hempty : view {} = ⟨[], false⟩)
    (hsink : ∀ used budget out run, Adds cap (f run) (view out)
      (view (walk_sink cfg.first_run (make_fastscan cfg) cfg.is_region_scan used budget out run)))
    {g : β → List γ} {places : Nat → List γ} (hg : ∀ run, ((f run).flatMap g).Subperm (run.addresses.flatMap places)) :
    (((first_scan_outs exec regions cfg).flatMap fun out => (view out).items).flatMap g).Subperm
      (((filter_regions cfg regions).flatMap scan_region_t.addresses).flatMap places) := by
  obtain ⟨nw, worker, hnw, houts, hadds⟩ := first_scan_outs_collects exec regions hview hempty hsink
  rw [houts, List.flatMap_map, List.flatMap_assoc, List.flatMap_assoc]
  refine Shares.subperm id hnw _ fun i => ?_
  obtain ⟨taken, htaken, hitems⟩ := (hadds i).sublist
  rw [hitems, List.nil_append, ← List.flatMap_assoc]
  refine (Shares.subperm_flatMap htaken.subperm g).trans ?_
  rw [List.flatMap_assoc]
  refine (Shares.flatMap_subperm fun run _ => hg run).trans ?_
  rw [← List.flatMap_assoc]
  exact Shares.subperm_flatMap (share_runs_addresses _ _ _ _ _ _) places

/-- Over a memory that stands still the workers together collect from the runs of the regions. -/
theorem first_scan_outs_perm (hview : Collects cap cfg.is_region_scan cfg.first_run view) (hempty : view {} = ⟨[], false⟩)
    (hsink : ∀ used budget out run, Adds cap (f run) (view out)
      (view (walk_sink cfg.first_run (make_fastscan cfg) cfg.is_region_scan used budget out run)))
    (hsteady : exec.Steady mem) (haborted : ∀ i n, exec.aborted i n = false)
    (hopen : ∀ out ∈ first_scan_outs exec regions cfg, out.truncated = false) :
    ((first_scan_outs exec regions cfg).flatMap fun out => (view out).items).Perm
      ((filter_regions cfg regions).flatMap fun reg => (region_runs cfg.first_run mem reg).flatMap f) := by
  obtain ⟨nw, worker, hnw, houts, hadds⟩ := first_scan_outs_collects exec regions hview hempty hsink
  rw [houts, List.flatMap_map]
  refine Shares.flatMap_perm id hnw _ fun i hi => ?_
  have hout : (view (worker i)).full = false := by
    rw [hview.full]
    exact hopen _ (houts ▸ List.mem_map_of_mem (List.mem_range.mpr hi))
  rw [(hadds i).complete hout, List.nil_append, share_runs_steady (hsteady.reads i) (hsteady.live i) (haborted i),
    List.flatMap_assoc]

end

section

variable {cfg : scan_config_t} {exec : scan_exec_t} {regions : List scan_region_t}

theorem collects_first_rows (hmode : cfg.is_region_scan = false) :
    Collects cfg.first_run.result_cap cfg.is_region_scan cfg.first_run worker_out_t.rows ∧
      ∀ used budget out run,
        Adds cfg.first_run.result_cap (run_rows cfg.first_run (make_fastscan cfg) run.addr run.data none) out.rows
          (walk_sink cfg.first_run (make_fastscan cfg) cfg.is_region_scan used budget out run).rows := by
  rw [hmode]
  exact ⟨collects_rows _, adds_walk_sink_rows _ _⟩

theorem collects_first_copies (hmode : cfg.is_region_scan = true) :
    Collects 0 cfg.is_region_scan cfg.first_run worker_out_t.copies ∧
      ∀ used budget out run, Adds 0 [(⟨run.addr, run.data⟩ : region_copy_t)] out.copies
        (walk_sink cfg.first_run (make_fastscan cfg) cfg.is_region_scan used budget out run).copies := by
  rw [hmode]
  exact ⟨collects_copies _, adds_walk_sink_copies _ _⟩

theorem first_scan_outs_keys (exec : scan_exec_t) (regions : List scan_region_t) (hmode : cfg.is_region_scan = false) :
    (((first_scan_outs exec regions cfg).flatMap worker_out_t.results).map scan_result_t.key).Subperm
      (((filter_regions cfg regions).flatMap scan_region_t.addresses).flatMap cfg.keys_at) := by
  obtain ⟨hview, hsink⟩ := collects_first_rows hmode
  have hkeys : cfg.first_run.keys_at = cfg.keys_at := by
    unfold scan_config_t.first_run
    split <;> rfl
  rw [List.map_eq_flatMap, ← hkeys]
  refine first_scan_outs_subperm exec regions hview rfl hsink fun run => ?_
  rw [← List.map_eq_flatMap]
  exact (keys_run_rows _ _ _ _ _).subperm

theorem first_scan_outs_places (exec : scan_exec_t) (regions : List scan_region_t) (hmode : cfg.is_region_scan = true) :
    (((first_scan_outs exec regions cfg).flatMap worker_out_t.stash).flatMap region_copy_t.addresses).Subperm
      ((filter_regions cfg regions).flatMap scan_region_t.addresses) := by
  obtain ⟨hview, hsink⟩ := collects_first_copies hmode
  rw [← List.flatMap_singleton' ((filter_regions cfg regions).flatMap scan_region_t.addresses)]
  refine first_scan_outs_subperm exec regions hview rfl hsink fun run => ?_
  rw [List.flatMap_singleton, List.flatMap_singleton']
  exact .refl _

theorem first_scan_outs_filled (exec : scan_exec_t) (regions : List scan_region_t) (hmode : cfg.is_region_scan = true) :
    ∀ rc ∈ (first_scan_outs exec regions cfg).flatMap worker_out_t.stash, rc.bytes ≠ [] := by
  obtain ⟨hview, hsink⟩ := collects_first_copies hmode
  obtain ⟨nw, worker, -, houts, hadds⟩ := first_scan_outs_collects exec regions hview rfl hsink
  intro rc hrc
  obtain ⟨out, hout, hrc⟩ := List.mem_flatMap.mp hrc
  rw [houts] at hout
  obtain ⟨i, -, rfl⟩ := List.mem_map.mp hout
  rcases (hadds i).mem_of_mem hrc with hnone | hrun
  · cases hnone
  · obtain ⟨run, hrun, hcopy⟩ := List.mem_flatMap.mp hrun
    rw [List.mem_singleton.mp hcopy]
    exact share_runs_nonempty _ _ _ _ _ _ run hrun

theorem first_scan_stash (exec : scan_exec_t) (regions : List scan_region_t)
    (hregions : (filter_regions cfg regions).isEmpty = false) (hmode : cfg.is_region_scan = true) :
    (first_scan exec regions cfg).stash =
      ((first_scan_outs exec regions cfg).flatMap worker_out_t.stash).mergeSort fun a b => a.base ≤ b.base := by
  simp [first_scan, hregions, hmode]

/-- Copies that share no place are sorted in one way only. -/
theorem mergeSort_copies {l l' : List region_copy_t} (hplaces : (l.flatMap region_copy_t.addresses).Nodup)
    (hfilled : ∀ rc ∈ l, rc.bytes ≠ []) (hperm : l.Perm l') :
    (l.mergeSort fun a b => a.base ≤ b.base) = l'.mergeSort fun a b => a.base ≤ b.base := by
  have hbases : (l.map region_copy_t.base).Sublist (l.flatMap region_copy_t.addresses) := by
    clear hplaces hperm
    induction l with
    | nil => exact .refl _
    | cons rc rest ih =>
      have hlen : rc.bytes.length = rc.bytes.length - 1 + 1 := by
        have hpos := List.length_pos_iff.mpr (hfilled rc (by simp))
        omega
      rw [List.map_cons, List.flatMap_cons, region_copy_t.addresses, hlen, List.range'_succ]
      exact ((ih fun rc' hrc' => hfilled rc' (List.mem_cons_of_mem rc hrc')).trans
        (List.sublist_append_right _ _)).cons_cons rc.base
  apply Shares.mergeSort_eq_of_perm _ _ _ (hplaces.sublist hbases) hperm
  · intro a b c hab hbc
    rw [decide_eq_true_eq] at *
    omega
  · intro a b
    rw [Bool.or_eq_true, decide_eq_true_eq, decide_eq_true_eq]
    omega
  · intro a b hab hba
    rw [decide_eq_true_eq] at *
    omega

/-- However a first scan ends, its rows and its copies are tidy. -/
theorem first_scan_tidy (exec : scan_exec_t) (cfg : scan_config_t) (hapart : regions.Pairwise scan_region_t.Apart) :
    (first_scan exec regions cfg).Tidy := by
  have haddresses := filter_regions_addresses cfg hapart
  cases hempty : (filter_regions cfg regions).isEmpty with
  | true =>
    simp only [first_scan, hempty, if_true]
    exact ⟨List.nodup_nil, List.nodup_nil, fun _ h => absurd h List.not_mem_nil⟩
  | false =>
    cases hmode : cfg.is_region_scan with
    | true =>
      have hsorted := List.mergeSort_perm ((first_scan_outs exec regions cfg).flatMap worker_out_t.stash)
        fun a b => decide (a.base ≤ b.base)
      have hplaces := Shares.nodup_of_subperm (first_scan_outs_places exec regions hmode) haddresses
      have hstash := first_scan_stash exec regions hempty hmode
      refine ⟨?_, ?_, ?_⟩
      · simp only [first_scan, hempty, hmode, if_true, Bool.false_eq_true, if_false]
        exact List.nodup_nil
      · rw [hstash]
        exact (hsorted.flatMap_right _).nodup_iff.mpr hplaces
      · intro rc hrc
        rw [hstash] at hrc
        exact first_scan_outs_filled exec regions hmode rc (hsorted.mem_iff.mp hrc)
    | false =>
      simp only [first_scan, hempty, hmode, Bool.false_eq_true, if_false]
      have hrows := merge_workers_keys cfg.result_cap { regions := (filter_regions cfg regions).length }
        (keys_nodup cfg haddresses) (first_scan_outs_keys exec regions hmode)
      exact ⟨hrows, List.nodup_nil, fun _ h => absurd h List.not_mem_nil⟩

end

section

variable {cfg : scan_config_t} {exec : scan_exec_t} {m : memscan_t} {mem : memory_t}

/-- Each row of the list is in one batch. -/
theorem flatten_batches (rows : List scan_result_t) : (batches rows).flatten = rows := by
  have hprefix : ∀ n, ((List.range n).map fun k => (rows.drop (64 * k)).take 64).flatten = rows.take (64 * n) := by
    intro n
    induction n with
    | zero => rfl
    | succ n ih =>
      rw [List.range_succ, List.map_append, List.flatten_append, ih, Nat.mul_succ, List.take_add]
      simp
  rw [batches, hprefix, List.take_of_length_le (by omega)]

private theorem stash_outs_adds (exec : scan_exec_t) (cfg : scan_config_t) (stash : List region_copy_t) :
    ∃ nw worker, 0 < nw ∧ stash_outs exec cfg stash = (List.range nw).map worker ∧
      ∀ i, Adds cfg.result_cap (stash_rows (exec.reader i) (exec.tok i) (exec.aborted i) cfg (make_fastscan cfg)
        (Shares.share id nw i stash) 0) ⟨[], false⟩ (worker i).rows :=
  ⟨_, _, Nat.lt_of_lt_of_le Nat.one_pos (Nat.le_max_left 1 _), rfl, fun _ => adds_stash_worker cfg _ _ _ _ _ 0 {}⟩

private theorem list_outs_adds (exec : scan_exec_t) (cfg : scan_config_t) (rows : List scan_result_t) :
    ∃ nw worker, 0 < nw ∧ list_outs exec cfg rows = (List.range nw).map worker ∧
      ∀ i, Adds cfg.result_cap (claimed_rows (exec.reader i) (exec.tok i) cfg
        (Shares.share exec.owner nw i (batches rows)) 0) ⟨[], false⟩ (worker i).rows :=
  ⟨_, _, Nat.lt_of_lt_of_le Nat.one_pos (Nat.le_max_left 1 _), rfl, fun _ => adds_list_worker cfg _ _ _ 0 {}⟩

theorem stash_outs_keys (exec : scan_exec_t) (cfg : scan_config_t) (stash : List region_copy_t) :
    (((stash_outs exec cfg stash).flatMap worker_out_t.results).map scan_result_t.key).Subperm
      ((stash.flatMap region_copy_t.addresses).flatMap cfg.keys_at) := by
  obtain ⟨nw, worker, hnw, houts, hadds⟩ := stash_outs_adds exec cfg stash
  rw [houts, List.flatMap_map, List.map_flatMap, List.flatMap_assoc]
  refine Shares.subperm id hnw stash fun i => ?_
  rw [← List.flatMap_assoc]
  exact ((hadds i).map_sublist scan_result_t.key).subperm.trans (keys_stash_rows _ _ _ cfg (make_fastscan cfg) _ 0)

theorem list_outs_keys (exec : scan_exec_t) (cfg : scan_config_t) (rows : List scan_result_t) :
    (((list_outs exec cfg rows).flatMap worker_out_t.results).map scan_result_t.key).Subperm
      (rows.map scan_result_t.key) := by
  obtain ⟨nw, worker, hnw, houts, hadds⟩ := list_outs_adds exec cfg rows
  have hrows : rows.map scan_result_t.key = (batches rows).flatMap fun batch => batch.map scan_result_t.key := by
    conv_lhs => rw [← flatten_batches rows]
    rw [List.map_flatten, List.flatMap_def]
  rw [houts, List.flatMap_map, List.map_flatMap, hrows]
  refine Shares.subperm exec.owner hnw _ fun i => ?_
  exact (((hadds i).map_sublist scan_result_t.key).trans (keys_claimed_rows _ _ cfg _ 0)).subperm

/-- Whatever a further scan does, it keeps the rows and the copies tidy. -/
theorem next_scan_tidy (exec : scan_exec_t) (cfg : scan_config_t) (htidy : m.Tidy) : (next_scan exec cfg m).2.Tidy := by
  unfold next_scan
  split
  · exact ⟨htidy.rows, htidy.places, htidy.filled⟩
  · split
    · exact ⟨htidy.rows, htidy.places, htidy.filled⟩
    · cases m.region_scan_active with
      | true =>
        have hrows := merge_workers_keys cfg.result_cap { regions := m.stats.regions } (keys_nodup cfg htidy.places)
          (stash_outs_keys exec cfg m.stash)
        exact ⟨hrows, List.nodup_nil, fun _ h => absurd h List.not_mem_nil⟩
      | false =>
        have hrows := merge_workers_keys cfg.result_cap { regions := m.stats.regions } htidy.rows
          (list_outs_keys exec cfg m.results)
        exact ⟨hrows, htidy.places, htidy.filled⟩

theorem session_tidy {regions : List scan_region_t} (hapart : regions.Pairwise scan_region_t.Apart) (exec : scan_exec_t)
    (cfg : scan_config_t) (scans : List (scan_exec_t × scan_config_t)) : (session exec regions cfg scans).Tidy := by
  induction scans with
  | nil => exact first_scan_tidy exec cfg hapart
  | cons scan earlier ih => exact next_scan_tidy scan.1 scan.2 ih

theorem stash_outs_perm {stash : List region_copy_t} (hsteady : exec.Steady mem)
    (haborted : ∀ i n, exec.aborted i n = false) (hopen : ∀ out ∈ stash_outs exec cfg stash, out.truncated = false) :
    ((stash_outs exec cfg stash).flatMap worker_out_t.results).Perm
      (stash.flatMap (compared_rows cfg (make_fastscan cfg) mem)) := by
  obtain ⟨nw, worker, hnw, houts, hadds⟩ := stash_outs_adds exec cfg stash
  rw [houts, List.flatMap_map]
  refine Shares.flatMap_perm id hnw stash fun i hi => ?_
  have hout : (worker i).truncated = false := hopen _ (houts ▸ List.mem_map_of_mem (List.mem_range.mpr hi))
  rw [← stash_rows_steady (hsteady.reads i) (hsteady.live i) (haborted i)]
  exact (hadds i).complete hout

theorem list_outs_perm {rows : List scan_result_t} (hsteady : exec.Steady mem)
    (hopen : ∀ out ∈ list_outs exec cfg rows, out.truncated = false) :
    ((list_outs exec cfg rows).flatMap worker_out_t.results).Perm
      (rows.flatMap fun row => kept_row mem.reader cfg row 0) := by
  obtain ⟨nw, worker, hnw, houts, hadds⟩ := list_outs_adds exec cfg rows
  have hrows : (rows.flatMap fun row => kept_row mem.reader cfg row 0) =
      (batches rows).flatMap fun batch => batch.flatMap fun row => kept_row mem.reader cfg row 0 := by
    conv_lhs => rw [← flatten_batches rows]
    rw [← List.flatMap_id, List.flatMap_assoc]
    rfl
  rw [houts, List.flatMap_map, hrows]
  refine Shares.flatMap_perm exec.owner hnw _ fun i hi => ?_
  have hout : (worker i).truncated = false := hopen _ (houts ▸ List.mem_map_of_mem (List.mem_range.mpr hi))
  rw [← claimed_rows_steady (hsteady.reads i) (hsteady.live i)]
  exact (hadds i).complete hout

end

end slop.core.memory
