import ReverseSlop.Core.Memory.Memscan.Completeness
import ReverseSlop.Core.Memory.Memscan.Traced

namespace slop.core.memory

variable {sink : worker_out_t → detail.run_t → worker_out_t}

section

variable {r : reader_t} {tok : cancel_token_t} {cfg : scan_config_t} {Q : scan_result_t → Prop} {out : worker_out_t}

private theorem resilient_read_traced {addr len min_leaf n next : Nat}
    {runs : List detail.run_t} (hread : detail.resilient_read r tok addr len min_leaf n = (runs, next))
    (hsink : ∀ run k out, addr ≤ run.addr → run.addr + run.data.length ≤ addr + len →
      r.read k run.addr run.data.length = some run.data → out.Traced r Q → (sink out run).Traced r Q)
    (htraced : out.Traced r Q) : (runs.foldl sink out).Traced r Q := by
  apply htraced.foldl
  intro run hrun out hout
  have hruns := detail.resilient_read_runs r tok addr len min_leaf n
  rw [hread] at hruns
  obtain ⟨hlo, hhi, k, hanswer⟩ := hruns run hrun
  exact hsink run k out hlo hhi hanswer hout

private theorem walk_chunks_traced
    (hsink : ∀ run k out, r.read k run.addr run.data.length = some run.data → out.Traced r Q →
      (sink out run).Traced r Q) (end_addr cursor n : Nat) (htraced : out.Traced r Q) :
    (walk_chunks r tok cfg sink end_addr cursor n out).1.Traced r Q := by
  fun_induction walk_chunks r tok cfg sink end_addr cursor n out with
  | case1 => exact htraced
  | case2 cursor n out hmore hlive want runs next hread out' hfull =>
    exact resilient_read_traced hread (fun run k out _ _ => hsink run k out) htraced
  | case3 cursor n out hmore hlive want runs next hread out' hopen ih =>
    apply ih
    exact resilient_read_traced hread (fun run k out _ _ => hsink run k out) htraced
  | case4 => exact htraced

private theorem first_scan_worker_traced
    (hsink : ∀ run k out, r.read k run.addr run.data.length = some run.data → out.Traced r Q →
      (sink out run).Traced r Q) (aborted : Nat → Bool) (region_scan : Bool) (regions : List scan_region_t)
    (n : Nat) (htraced : out.Traced r Q) :
    (first_scan_worker r tok aborted cfg sink region_scan regions n out).Traced r Q := by
  induction regions generalizing n out with
  | nil => exact htraced
  | cons reg rest ih =>
    have hwalk : (walk_region r tok cfg sink reg (n + 1) out).1.Traced r Q :=
      (walk_chunks_traced hsink (reg.base + reg.size) reg.base (n + 1) htraced).congr rfl rfl rfl
    unfold first_scan_worker
    split
    · exact htraced
    · dsimp only
      split
      · exact hwalk.congr rfl rfl rfl
      · exact ih _ hwalk

private theorem walk_sink_traced {fs : fastscan_t} {stash_mode : Bool} {stash_used : Nat → Nat} {stash_budget : Nat}
    (hQ : stash_mode = false → ∀ row, check_value cfg row.width row.bits 0 = true → Q row)
    {run : detail.run_t} {k : Nat} (hanswer : r.read k run.addr run.data.length = some run.data)
    (htraced : out.Traced r Q) : (walk_sink cfg fs stash_mode stash_used stash_budget out run).Traced r Q := by
  have hlog := htraced.log_read hanswer
  have hmem := out.mem_log_read run
  unfold walk_sink
  cases hmode : stash_mode with
  | true =>
    dsimp only
    rw [if_pos rfl]
    split
    · exact hlog.congr rfl rfl rfl
    · refine ⟨hlog.answers, hlog.rows, ?_⟩
      intro rc hrc
      rcases List.mem_append.mp hrc with hold | hnew
      · exact hlog.copies rc hold
      · rw [List.mem_singleton.mp hnew]
        exact hmem
  | false =>
    dsimp only
    rw [if_neg Bool.false_ne_true]
    let counted : worker_out_t := { out.log_read run with bytes_scanned := out.bytes_scanned + run.data.length }
    have hcounted : counted.Traced r Q := hlog.congr rfl rfl rfl
    apply hcounted.add (scan_run_adds_only cfg fs run.addr run.data none counted) hmem
    intro row hrow
    exact ⟨hrow.slot, hQ hmode row hrow.accepted⟩

/-- The row is accepted against the slot that one of the copies holds for it. -/
def SlotPassed (cfg : scan_config_t) (stash : List region_copy_t) (row : scan_result_t) : Prop :=
  ∃ rc ∈ stash, ∃ prev : BitVec 64, IsSlot rc.base rc.bytes ⟨row.address, prev, row.width⟩ ∧
    check_value cfg row.width row.bits prev = true

/-- The row is accepted against the bits of a row with its address and width. -/
def RowPassed (cfg : scan_config_t) (rows : List scan_result_t) (row : scan_result_t) : Prop :=
  ∃ prev : BitVec 64, ⟨row.address, prev, row.width⟩ ∈ rows ∧ check_value cfg row.width row.bits prev = true

/-- The fresh run and the stored copy are compared at the same addresses. -/
theorem stash_slot {rc : region_copy_t} {run : detail.run_t} {row : scan_result_t} (hlo : rc.base ≤ run.addr)
    (hcopy : run.addr - rc.base ≤ rc.bytes.length)
    (hrow : ComparedRow cfg run.addr (run.data.take (min run.data.length (rc.bytes.length - (run.addr - rc.base))))
      (some (rc.bytes.drop (run.addr - rc.base))) row) :
    IsSlot run.addr run.data row ∧ ∃ prev : BitVec 64, IsSlot rc.base rc.bytes ⟨row.address, prev, row.width⟩ ∧
      check_value cfg row.width row.bits prev = true := by
  obtain ⟨⟨hlower, hupper, hbits⟩, haccepted⟩ := hrow
  rw [List.length_take, Nat.min_eq_left (Nat.min_le_left _ _)] at hupper
  refine ⟨⟨hlower, by omega, ?_⟩, load_bits (rc.bytes.drop (row.address - rc.base)) (value_size row.width),
    ⟨?_, ?_, rfl⟩, ?_⟩
  · rw [hbits, List.drop_take, ← load_bits_take, List.take_take, Nat.min_eq_left (by omega), load_bits_take]
  · exact hlo.trans hlower
  · dsimp only
    omega
  · rw [prev_bits, List.drop_drop, show run.addr - rc.base + (row.address - run.addr) = row.address - rc.base by omega]
      at haccepted
    exact haccepted

private theorem stash_sink_traced {fs : fastscan_t} {stash : List region_copy_t} {rc : region_copy_t} (hrc : rc ∈ stash)
    {run : detail.run_t} {k : Nat} (hlo : rc.base ≤ run.addr)
    (hanswer : r.read k run.addr run.data.length = some run.data) (htraced : out.Traced r (SlotPassed cfg stash)) :
    (stash_sink cfg fs rc out run).Traced r (SlotPassed cfg stash) := by
  have hlog := htraced.log_read hanswer
  have hmem := out.mem_log_read run
  unfold stash_sink
  dsimp only
  split
  · exact hlog
  · next hcopy =>
    split
    · exact hlog
    · generalize hcomparable : min run.data.length (rc.bytes.length - (run.addr - rc.base)) = comparable
      let counted : worker_out_t := { out.log_read run with bytes_scanned := out.bytes_scanned + comparable }
      have hcounted : counted.Traced r (SlotPassed cfg stash) := hlog.congr rfl rfl rfl
      have hscan := hcounted.add (scan_run_adds_only cfg fs run.addr (run.data.take comparable)
        (some (rc.bytes.drop (run.addr - rc.base))) counted) hmem (by
          intro row hrow
          rw [← hcomparable] at hrow
          obtain ⟨hslot, hprev⟩ := stash_slot hlo (Nat.not_lt.mp hcopy) hrow
          exact ⟨hslot, rc, hrc, hprev⟩)
      split
      · exact hscan.congr rfl rfl rfl
      · exact hscan

private theorem stash_worker_traced {fs : fastscan_t} {stash : List region_copy_t} (aborted : Nat → Bool)
    (share : List region_copy_t) (hshare : ∀ rc ∈ share, rc ∈ stash) (n : Nat)
    (htraced : out.Traced r (SlotPassed cfg stash)) :
    (stash_worker r tok aborted cfg fs share n out).Traced r (SlotPassed cfg stash) := by
  induction share generalizing n out with
  | nil => exact htraced
  | cons rc rest ih =>
    have hruns : ((detail.resilient_read r tok rc.base rc.bytes.length 4096 (n + 1)).1.foldl
        (stash_sink cfg fs rc) out).Traced r (SlotPassed cfg stash) :=
      resilient_read_traced rfl (fun _ _ _ hlo _ => stash_sink_traced (hshare rc (by simp)) hlo) htraced
    unfold stash_worker
    split
    · exact htraced
    · dsimp only
      split
      · exact hruns
      · exact ih (fun rc' hrc' => hshare rc' (List.mem_cons_of_mem rc hrc')) _ hruns

private theorem list_batch_traced {rows : List scan_result_t} (batch : List scan_result_t)
    (hbatch : ∀ row ∈ batch, row ∈ rows) (n : Nat) (htraced : out.Traced r (RowPassed cfg rows)) :
    (list_batch r cfg batch n out).1.Traced r (RowPassed cfg rows) := by
  induction batch generalizing n out with
  | nil => exact htraced
  | cons row rest ih =>
    have hrest := fun row' hrow' => hbatch row' (List.mem_cons_of_mem row hrow')
    unfold list_batch
    dsimp only
    split
    · exact ih hrest _ htraced
    · next data hread =>
      have hlen := r.read_length hread
      have hlog : (out.log_read ⟨row.address, data⟩).count_slot.Traced r (RowPassed cfg rows) :=
        (htraced.log_read (k := n) (by simpa [hlen] using hread)).congr rfl rfl rfl
      have hslot : IsSlot row.address data ⟨row.address, load_bits data (value_size row.width), row.width⟩ :=
        ⟨le_rfl, by simp [hlen], by simp⟩
      split
      · next hcheck =>
        have hpush := hlog.add (push_result_adds_only cfg.result_cap _ (P := (· = _)) rfl)
          (out.mem_log_read _) (by
            rintro _ rfl
            exact ⟨hslot, row.bits, hbatch row (by simp), hcheck⟩)
        split
        · exact hpush
        · exact ih hrest _ hpush
      · exact ih hrest _ hlog

private theorem list_worker_traced {rows : List scan_result_t} (batches : List (List scan_result_t))
    (hbatches : ∀ batch ∈ batches, ∀ row ∈ batch, row ∈ rows) (n : Nat)
    (htraced : out.Traced r (RowPassed cfg rows)) :
    (list_worker r tok cfg batches n out).Traced r (RowPassed cfg rows) := by
  induction batches generalizing n out with
  | nil => exact htraced
  | cons batch rest ih =>
    have hbatch := list_batch_traced batch (hbatches batch (by simp)) (n + 1) htraced
    unfold list_worker
    split
    · exact htraced
    · split
      · next out' _ hstep => rwa [hstep] at hbatch
      · next out' next hstep =>
        rw [hstep] at hbatch
        exact ih (fun batch' hmem => hbatches batch' (List.mem_cons_of_mem batch hmem)) _ hbatch

end

/-- The row holds what one of the reads of the last scan found at its address. -/
def memscan_t.ReadBy (m : memscan_t) (exec : scan_exec_t) (row : scan_result_t) : Prop :=
  ∃ run ∈ m.reads, (∃ i k, (exec.reader i).read k run.addr run.data.length = some run.data) ∧
    IsSlot run.addr run.data row

section

variable {exec : scan_exec_t} {cfg : scan_config_t} {Q : scan_result_t → Prop} {outs : List worker_out_t}

private theorem readBy_of_traced (htraced : ∀ out ∈ outs, ∃ i, out.Traced (exec.reader i) Q) {m : memscan_t}
    (hreads : m.reads = outs.flatMap worker_out_t.reads) {out : worker_out_t} (hout : out ∈ outs)
    {row : scan_result_t} (hrow : row ∈ out.results) : m.ReadBy exec row ∧ Q row := by
  obtain ⟨i, hworker⟩ := htraced out hout
  obtain ⟨⟨run, hrun, hslot⟩, hQ⟩ := hworker.rows row hrow
  refine ⟨⟨run, ?_, ⟨i, hworker.answers run hrun⟩, hslot⟩, hQ⟩
  rw [hreads]
  exact List.mem_flatMap.mpr ⟨out, hout, hrun⟩

private theorem mem_merge_workers {cap : Nat} {st : scan_stats_t} {row : scan_result_t}
    (hrow : row ∈ (merge_workers outs cap st).1) : ∃ out ∈ outs, row ∈ out.results := by
  unfold merge_workers at hrow
  rw [List.mem_mergeSort] at hrow
  exact List.mem_flatMap.mp (List.mem_of_mem_take hrow)

private theorem first_scan_outs_traced (exec : scan_exec_t) (regions : List scan_region_t) (cfg : scan_config_t) :
    ∀ out ∈ first_scan_outs exec regions cfg, ∃ i, out.Traced (exec.reader i) fun row =>
      cfg.is_region_scan = false → check_value cfg row.width row.bits 0 = true := by
  intro out hout
  obtain ⟨i, -, rfl⟩ := List.mem_map.mp hout
  refine ⟨i, first_scan_worker_traced ?_ _ _ _ _ (.empty _ _)⟩
  intro run k out hanswer htraced
  apply walk_sink_traced _ hanswer htraced
  intro hrows row hcheck _
  have hkind : is_relational cfg.type = false := by
    by_contra hrel
    rw [Bool.not_eq_false] at hrel
    simp [scan_config_t.is_region_scan, scan_config_t.first_run, hrel] at hrows
  rwa [first_run_of_not_relational hkind] at hcheck

private theorem first_scan_reads (exec : scan_exec_t) {regions : List scan_region_t}
    (hregions : (filter_regions cfg regions).isEmpty = false) :
    (first_scan exec regions cfg).reads = (first_scan_outs exec regions cfg).flatMap worker_out_t.reads := by
  cases hregion : cfg.is_region_scan <;> simp [first_scan, hregions, hregion]

/-- Every row of a first scan was read by it and passed its predicate. -/
theorem first_scan_rows_traced (exec : scan_exec_t) (regions : List scan_region_t) (cfg : scan_config_t) :
    ∀ row ∈ (first_scan exec regions cfg).results,
      (first_scan exec regions cfg).ReadBy exec row ∧ check_value cfg row.width row.bits 0 = true := by
  intro row hrow
  have htraced := first_scan_outs_traced exec regions cfg
  cases hempty : (filter_regions cfg regions).isEmpty with
  | true => simp [first_scan, hempty] at hrow
  | false =>
    cases hregion : cfg.is_region_scan with
    | true => simp [first_scan, hempty, hregion] at hrow
    | false =>
      simp only [first_scan, hempty, hregion, Bool.false_eq_true, if_false] at hrow
      obtain ⟨out, hout, hmem⟩ := mem_merge_workers hrow
      obtain ⟨hread, hcheck⟩ := readBy_of_traced htraced (first_scan_reads exec hempty) hout hmem
      exact ⟨hread, hcheck hregion⟩

private theorem stash_outs_traced (exec : scan_exec_t) (cfg : scan_config_t) (stash : List region_copy_t) :
    ∀ out ∈ stash_outs exec cfg stash, ∃ i, out.Traced (exec.reader i) (SlotPassed cfg stash) := by
  intro out hout
  obtain ⟨i, -, rfl⟩ := List.mem_map.mp hout
  exact ⟨i, stash_worker_traced _ _ (fun rc hrc => mem_strided hrc) 0 (.empty _ _)⟩

private theorem list_outs_traced (exec : scan_exec_t) (cfg : scan_config_t) (rows : List scan_result_t) :
    ∀ out ∈ list_outs exec cfg rows, ∃ i, out.Traced (exec.reader i) (RowPassed cfg rows) := by
  intro out hout
  obtain ⟨i, -, rfl⟩ := List.mem_map.mp hout
  refine ⟨i, list_worker_traced _ ?_ 0 (.empty _ _)⟩
  intro batch hbatch row hrow
  obtain ⟨⟨batch', k⟩, hmem, rfl⟩ := List.mem_map.mp hbatch
  obtain ⟨k', -, rfl⟩ := List.mem_map.mp (List.fst_mem_of_mem_zipIdx (List.mem_of_mem_filter hmem))
  exact List.mem_of_mem_drop (List.mem_of_mem_take hrow)

private theorem next_scan_reads (exec : scan_exec_t) {m : memscan_t} (htype : cfg.type ≠ .unknown_initial)
    (hprevious : m.region_scan_active = true ∨ m.address_list = true) :
    (next_scan exec cfg m).2.reads =
      (if m.region_scan_active then stash_outs exec cfg m.stash else list_outs exec cfg m.results).flatMap
        worker_out_t.reads := by
  have hsome : ¬ (!m.region_scan_active && !m.address_list) = true := by
    rcases hprevious with h | h <;> simp [h]
  unfold next_scan
  rw [if_neg hsome, if_neg htype]

private theorem mem_next_scan (exec : scan_exec_t) {m : memscan_t} (htype : cfg.type ≠ .unknown_initial)
    (hprevious : m.region_scan_active = true ∨ m.address_list = true) {row : scan_result_t}
    (hrow : row ∈ (next_scan exec cfg m).2.results) :
    ∃ out ∈ (if m.region_scan_active then stash_outs exec cfg m.stash else list_outs exec cfg m.results),
      row ∈ out.results := by
  have hsome : ¬ (!m.region_scan_active && !m.address_list) = true := by
    rcases hprevious with h | h <;> simp [h]
  unfold next_scan at hrow
  rw [if_neg hsome, if_neg htype] at hrow
  have hmerged : row ∈ (merge_workers _ cfg.result_cap { regions := m.stats.regions }).1 := hrow
  exact mem_merge_workers hmerged

/-- What a scan that is no passthrough says of its rows: each was read by it and
passed its predicate against the bits stored before. -/
theorem next_scan_rows_traced (exec : scan_exec_t) (cfg : scan_config_t) (m : memscan_t)
    (hnone : m.region_scan_active = false → m.address_list = false → m.results = [])
    (htype : cfg.type ≠ .unknown_initial) :
    ∀ row ∈ (next_scan exec cfg m).2.results, (next_scan exec cfg m).2.ReadBy exec row ∧
      if m.region_scan_active then SlotPassed cfg m.stash row else RowPassed cfg m.results row := by
  intro row hrow
  cases hactive : m.region_scan_active with
  | true =>
    have hreads := next_scan_reads exec htype (Or.inl hactive)
    obtain ⟨out, hout, hmem⟩ := mem_next_scan exec htype (Or.inl hactive) hrow
    rw [hactive] at hreads hout
    exact readBy_of_traced (stash_outs_traced exec cfg m.stash) hreads hout hmem
  | false =>
    cases hlist : m.address_list with
    | false =>
      simp [next_scan, hactive, hlist, hnone hactive hlist] at hrow
    | true =>
      have hreads := next_scan_reads exec htype (Or.inr hlist)
      obtain ⟨out, hout, hmem⟩ := mem_next_scan exec htype (Or.inr hlist) hrow
      rw [hactive] at hreads hout
      exact readBy_of_traced (list_outs_traced exec cfg m.results) hreads hout hmem

end

/-- What a chain of scans leaves behind: a first scan and, newest first, the
scans after it. -/
def session (exec : scan_exec_t) (regions : List scan_region_t) (cfg : scan_config_t) :
    List (scan_exec_t × scan_config_t) → memscan_t
  | [] => first_scan exec regions cfg
  | (exec', cfg') :: earlier => (next_scan exec' cfg' (session exec regions cfg earlier)).2

/-- A row survives a chain of scans: the last scan that is no passthrough has read
it, and accepted it against a slot of the stash of the first scan or against a
row with its address and width that survived the scans before. -/
def Survives (exec : scan_exec_t) (regions : List scan_region_t) (cfg : scan_config_t) :
    List (scan_exec_t × scan_config_t) → scan_result_t → Prop
  | [], row => (first_scan exec regions cfg).ReadBy exec row ∧ check_value cfg row.width row.bits 0 = true
  | (exec', cfg') :: earlier, row =>
    let before := session exec regions cfg earlier
    if cfg'.type = .unknown_initial then row ∈ before.results ∧ Survives exec regions cfg earlier row
    else
      (next_scan exec' cfg' before).2.ReadBy exec' row ∧
      ∃ prev : BitVec 64, check_value cfg' row.width row.bits prev = true ∧
        if before.region_scan_active then
          ∃ rc ∈ (first_scan exec regions cfg).stash, IsSlot rc.base rc.bytes ⟨row.address, prev, row.width⟩
        else
          ⟨row.address, prev, row.width⟩ ∈ before.results ∧
            Survives exec regions cfg earlier ⟨row.address, prev, row.width⟩

section

variable (exec : scan_exec_t) (regions : List scan_region_t) (cfg : scan_config_t)

/-- Between two scans: without a stash and without an address list there are no
rows, and the stash that is alive is the one of the first scan. -/
structure memscan_t.SessionInv (first m : memscan_t) : Prop where
  no_rows : m.region_scan_active = false → m.address_list = false → m.results = []
  stash : m.region_scan_active = true → m.stash = first.stash

private theorem first_scan_inv : (first_scan exec regions cfg).SessionInv (first_scan exec regions cfg) where
  no_rows := by
    cases hempty : (filter_regions cfg regions).isEmpty with
    | true => simp [first_scan, hempty]
    | false => cases hregion : cfg.is_region_scan <;> simp [first_scan, hempty, hregion]
  stash _ := rfl

private theorem next_scan_inv {first m : memscan_t} (hinv : first.SessionInv m) :
    first.SessionInv (next_scan exec cfg m).2 := by
  unfold next_scan
  split
  · exact ⟨hinv.no_rows, hinv.stash⟩
  · split
    · exact ⟨hinv.no_rows, hinv.stash⟩
    · exact ⟨fun _ hlist => by simpa using hlist, fun hactive => nomatch hactive⟩

private theorem session_inv (scans : List (scan_exec_t × scan_config_t)) :
    (first_scan exec regions cfg).SessionInv (session exec regions cfg scans) := by
  induction scans with
  | nil => exact first_scan_inv exec regions cfg
  | cons scan earlier ih => exact next_scan_inv scan.1 scan.2 ih

private theorem next_scan_passthrough (m : memscan_t) (htype : cfg.type = .unknown_initial) :
    (next_scan exec cfg m).2.results = m.results ∧ (next_scan exec cfg m).2.reads = [] := by
  unfold next_scan
  split
  · exact ⟨rfl, rfl⟩
  · exact ⟨rfl, rfl⟩

/-- Every row of the list has survived every scan of the chain in turn. -/
theorem session_rows_survive (scans : List (scan_exec_t × scan_config_t)) :
    ∀ row ∈ (session exec regions cfg scans).results, Survives exec regions cfg scans row := by
  induction scans with
  | nil => exact first_scan_rows_traced exec regions cfg
  | cons scan earlier ih =>
    obtain ⟨exec', cfg'⟩ := scan
    intro row hrow
    have hinv := session_inv exec regions cfg earlier
    simp only [session] at hrow
    simp only [Survives]
    by_cases htype : cfg'.type = .unknown_initial
    · rw [if_pos htype]
      rw [(next_scan_passthrough exec' cfg' _ htype).1] at hrow
      exact ⟨hrow, ih row hrow⟩
    · rw [if_neg htype]
      obtain ⟨hread, hpassed⟩ := next_scan_rows_traced exec' cfg' _ hinv.no_rows htype row hrow
      refine ⟨hread, ?_⟩
      cases hactive : (session exec regions cfg earlier).region_scan_active with
      | true =>
        simp only [hactive, if_true] at hpassed ⊢
        obtain ⟨rc, hrc, prev, hslot, hcheck⟩ := hpassed
        exact ⟨prev, hcheck, rc, hinv.stash hactive ▸ hrc, hslot⟩
      | false =>
        simp only [hactive, Bool.false_eq_true, if_false] at hpassed ⊢
        obtain ⟨prev, hprev, hcheck⟩ := hpassed
        exact ⟨prev, hcheck, hprev, ih _ hprev⟩

end

/-- A first scan for the byte 2 finds the one there is. -/
theorem first_scan_finds_byte :
    let reg : scan_region_t :=
      { base := 0x10000, size := 8, protect := 0x04, type := kMemPrivate, in_user_space := by decide }
    let cfg : scan_config_t := { type := .exact_value, width := .u8, value1 := 2 }
    let exec := scan_exec_t.undisturbed (planted 0x10003 [1, 2])
    ⟨0x10004, 2, .u8⟩ ∈ (first_scan exec [reg] cfg).results := by
  intro reg cfg exec
  have hfilter : filter_regions cfg [reg] = [reg] := by
    simp [filter_regions, filter_region_whole cfg reg (by decide) rfl rfl (by decide)]
  have hreg : reg ∈ filter_regions cfg [reg] := by simp [hfilter]
  have hreadable : (planted 0x10003 [1, 2]).Readable (filter_regions cfg [reg]) := planted_readable _ _ _
  have hsteady := scan_exec_t.undisturbed_steady (planted 0x10003 [1, 2])
  have hroom : (first_scan exec [reg] cfg).stats.truncated = false := by
    apply first_scan_not_truncated cfg rfl rfl hreadable hsteady (fun _ _ => rfl) (List.ne_nil_of_mem hreg)
    have hlen := length_chunk_hits_le cfg (planted 0x10003 [1, 2]) 0x10008 0x10000
    have hbound : (worker_count exec cfg + 1) * (chunk_hits cfg (planted 0x10003 [1, 2]) 0x10008 0x10000).length ≤
        2 * 8 := Nat.mul_le_mul_left _ hlen
    rw [hfilter, List.flatMap_singleton]
    exact hbound.trans_lt (by decide)
  apply row_mem_first_scan cfg rfl rfl hreadable hsteady (scan_exec_t.undisturbed_aborts _ _ _) hroom hreg
  exact mem_region_hits.mpr ⟨by decide, by decide, rfl, rfl, by decide⟩

theorem byte_survives_passthrough :
    let reg : scan_region_t :=
      { base := 0x10000, size := 8, protect := 0x04, type := kMemPrivate, in_user_space := by decide }
    let cfg : scan_config_t := { type := .exact_value, width := .u8, value1 := 2 }
    let exec := scan_exec_t.undisturbed (planted 0x10003 [1, 2])
    Survives exec [reg] cfg [(exec, { type := .unknown_initial })] ⟨0x10004, 2, .u8⟩ := by
  intro reg cfg exec
  apply session_rows_survive exec [reg] cfg [(exec, { type := .unknown_initial })]
  rw [session, (next_scan_passthrough exec { type := .unknown_initial } _ rfl).1]
  exact first_scan_finds_byte

/-- A byte found by a first scan is still listed after a passthrough, which has
read nothing. -/
theorem passthrough_reads_nothing :
    let reg : scan_region_t :=
      { base := 0x10000, size := 8, protect := 0x04, type := kMemPrivate, in_user_space := by decide }
    let cfg : scan_config_t := { type := .exact_value, width := .u8, value1 := 2 }
    let exec := scan_exec_t.undisturbed (planted 0x10003 [1, 2])
    let after := session exec [reg] cfg [(exec, { type := .unknown_initial })]
    ⟨0x10004, 2, .u8⟩ ∈ after.results ∧ ¬ after.ReadBy exec ⟨0x10004, 2, .u8⟩ := by
  intro reg cfg exec after
  obtain ⟨hresults, hreads⟩ := next_scan_passthrough exec { type := .unknown_initial }
    (first_scan exec [reg] cfg) rfl
  refine ⟨hresults ▸ first_scan_finds_byte, ?_⟩
  rintro ⟨run, hrun, -⟩
  rw [show after.reads = [] from hreads] at hrun
  cases hrun

end slop.core.memory
