import ReverseSlop.Core.Memory.Memscan.Engine
import ReverseSlop.Core.Memory.Memscan.Rows

namespace slop.core.memory

/-- The row is the slot at its address of the bytes kept from `base` on. -/
structure IsSlot (base : Nat) (bytes : List UInt8) (row : scan_result_t) : Prop where
  lower : base ≤ row.address
  upper : row.address + value_size row.width ≤ base + bytes.length
  bits : row.bits = load_bits (bytes.drop (row.address - base)) (value_size row.width)

/-- The row was compared with the bytes of a run, and with the old bytes there. -/
structure ComparedRow (cfg : scan_config_t) (base : Nat) (data : List UInt8) (old : Option (List UInt8))
    (row : scan_result_t) : Prop where
  slot : IsSlot base data row
  accepted : check_value cfg row.width row.bits
    (prev_bits old (row.address - base) (value_size row.width)) = true

/-- Nothing but rows that satisfy `P` is added, and no read is logged. -/
structure worker_out_t.AddsOnly (P : scan_result_t → Prop) (out out' : worker_out_t) : Prop where
  reads : out'.reads = out.reads
  stash : out'.stash = out.stash
  rows : ∀ row ∈ out'.results, row ∈ out.results ∨ P row

section

variable {P : scan_result_t → Prop} {out mid out' : worker_out_t}

private theorem worker_out_t.AddsOnly.refl (P : scan_result_t → Prop) (out : worker_out_t) : AddsOnly P out out :=
  ⟨rfl, rfl, fun _ => Or.inl⟩

private theorem worker_out_t.AddsOnly.trans (hfirst : AddsOnly P out mid) (hsecond : AddsOnly P mid out') :
    AddsOnly P out out' where
  reads := hsecond.reads.trans hfirst.reads
  stash := hsecond.stash.trans hfirst.stash
  rows row hrow := by
    rcases hsecond.rows row hrow with hmid | hnew
    · exact hfirst.rows row hmid
    · exact Or.inr hnew

end

section

variable (cfg : scan_config_t) (fs : fastscan_t) (base : Nat) (data : List UInt8) (old : Option (List UInt8))

theorem push_result_adds_only {P : scan_result_t → Prop} (cap : Nat) (out : worker_out_t) {row : scan_result_t}
    (hrow : P row) : out.AddsOnly P (out.push_result cap row).1 := by
  have hrows : ∀ x ∈ out.results ++ [row], x ∈ out.results ∨ P x := by
    intro x hx
    rcases List.mem_append.mp hx with hold | hnew
    · exact Or.inl hold
    · exact Or.inr (List.mem_singleton.mp hnew ▸ hrow)
  unfold worker_out_t.push_result
  dsimp only
  split <;> exact ⟨rfl, rfl, hrows⟩

private theorem compared_row {off : Nat} {w : value_width_t} (hroom : off + value_size w ≤ data.length)
    (hcheck : check_value cfg w (load_bits (data.drop off) (value_size w)) (prev_bits old off (value_size w)) = true) :
    ComparedRow cfg base data old ⟨base + off, load_bits (data.drop off) (value_size w), w⟩ where
  slot := ⟨Nat.le_add_right _ _, by dsimp only; omega, by simp⟩
  accepted := by simpa using hcheck

private theorem scan_widths_adds_only (off : Nat) (widths : List value_width_t) (out : worker_out_t) :
    out.AddsOnly (ComparedRow cfg base data old) (scan_widths cfg fs base data old off widths out).1 := by
  induction widths generalizing out with
  | nil => exact .refl _ out
  | cons w rest ih =>
    simp only [scan_widths]
    by_cases hshort : data.length < off + value_size w
    · rw [if_pos hshort]
      exact ih out
    · rw [if_neg hshort]
      by_cases hgate : (!width_gate fs w (base + off)) = true
      · rw [if_pos hgate]
        exact ih out
      · rw [if_neg hgate]
        by_cases hcheck : check_value cfg w (load_bits (data.drop off) (value_size w))
            (prev_bits old off (value_size w)) = true
        · have hpush := push_result_adds_only cfg.result_cap out
            (compared_row cfg base data old (Nat.not_lt.mp hshort) hcheck)
          rw [if_pos hcheck]
          split
          · exact hpush
          · exact hpush.trans (ih _)
        · rw [if_neg hcheck]
          exact ih out

private theorem scan_slot_adds_only (off : Nat) (out : worker_out_t) :
    out.AddsOnly (ComparedRow cfg base data old) (scan_slot cfg fs base data old off out).1 := by
  unfold scan_slot
  by_cases hall : cfg.scan_all_types = true
  · have hwidths := scan_widths_adds_only cfg fs base data old off kAllWidths out
    rw [if_pos hall]
    dsimp only
    split
    · exact hwidths
    · exact ⟨hwidths.reads, hwidths.stash, hwidths.rows⟩
  · rw [if_neg hall]
    dsimp only
    by_cases hshort : data.length < off + value_size cfg.width
    · rw [if_pos hshort]
      exact .refl _ out
    · rw [if_neg hshort]
      by_cases hcheck : check_value cfg cfg.width (load_bits (data.drop off) (value_size cfg.width))
          (prev_bits old off (value_size cfg.width)) = true
      · rw [if_pos hcheck]
        have hpush := push_result_adds_only cfg.result_cap out.count_slot
          (compared_row cfg base data old (Nat.not_lt.mp hshort) hcheck)
        exact ⟨hpush.reads, hpush.stash, hpush.rows⟩
      · rw [if_neg hcheck]
        exact ⟨rfl, rfl, fun _ => Or.inl⟩

private theorem scan_offsets_adds_only (last off : Nat) (out : worker_out_t) :
    out.AddsOnly (ComparedRow cfg base data old) (scan_offsets cfg fs base data old last off out) := by
  fun_induction scan_offsets cfg fs base data old last off out with
  | case1 off out hle next hslot =>
    have hadds := scan_slot_adds_only cfg fs base data old off out
    rwa [hslot] at hadds
  | case2 off out hle next hslot ih =>
    have hadds := scan_slot_adds_only cfg fs base data old off out
    rw [hslot] at hadds
    exact hadds.trans ih
  | case3 off out hgt => exact .refl _ out

/-- The kernel adds rows that it compared, whatever the stride, the gate and the
cap let through. -/
theorem scan_run_adds_only (out : worker_out_t) :
    out.AddsOnly (ComparedRow cfg base data old) (scan_run cfg fs base data old out) := by
  unfold scan_run
  dsimp only
  split
  · exact .refl _ out
  · split
    · exact ⟨rfl, rfl, fun _ => Or.inl⟩
    · generalize (if cfg.scan_all_types = true then 1 else value_size cfg.width) = least
      by_cases hshort : data.length < least
      · rw [if_pos hshort]
        exact .refl _ out
      · rw [if_neg hshort]
        exact scan_offsets_adds_only cfg fs base data old _ _ out

end

/-- Everything a worker holds goes back to a read that succeeded: its rows are
slots of runs that were read, its copies are such runs, and each row satisfies
`Q` besides. -/
structure worker_out_t.Traced (r : reader_t) (Q : scan_result_t → Prop) (out : worker_out_t) : Prop where
  answers : ∀ run ∈ out.reads, ∃ k, r.read k run.addr run.data.length = some run.data
  rows : ∀ row ∈ out.results, (∃ run ∈ out.reads, IsSlot run.addr run.data row) ∧ Q row
  copies : ∀ rc ∈ out.stash, (⟨rc.base, rc.bytes⟩ : detail.run_t) ∈ out.reads

section

variable {r : reader_t} {Q : scan_result_t → Prop} {out out' : worker_out_t}

theorem worker_out_t.Traced.empty (r : reader_t) (Q : scan_result_t → Prop) : Traced r Q {} where
  answers _ h := nomatch h
  rows _ h := nomatch h
  copies _ h := nomatch h

/-- Counters and the flag do not matter. -/
theorem worker_out_t.Traced.congr (htraced : Traced r Q out) (hreads : out'.reads = out.reads)
    (hresults : out'.results = out.results) (hstash : out'.stash = out.stash) : Traced r Q out' where
  answers := hreads ▸ htraced.answers
  rows := hreads ▸ hresults ▸ htraced.rows
  copies := hreads ▸ hstash ▸ htraced.copies

theorem worker_out_t.Traced.log_read (htraced : Traced r Q out) {run : detail.run_t} {k : Nat}
    (hanswer : r.read k run.addr run.data.length = some run.data) : Traced r Q (out.log_read run) where
  answers := by
    intro x hx
    rcases List.mem_append.mp hx with hold | hnew
    · exact htraced.answers x hold
    · rw [List.mem_singleton.mp hnew]
      exact ⟨k, hanswer⟩
  rows := by
    intro row hrow
    obtain ⟨⟨run', hrun', hslot⟩, hQ⟩ := htraced.rows row hrow
    exact ⟨⟨run', List.mem_append_left _ hrun', hslot⟩, hQ⟩
  copies rc hrc := List.mem_append_left _ (htraced.copies rc hrc)

/-- Rows taken from the run just logged keep the trace. -/
theorem worker_out_t.Traced.add {P : scan_result_t → Prop} (htraced : Traced r Q out)
    (hadds : out.AddsOnly P out') {run : detail.run_t} (hrun : run ∈ out.reads)
    (hP : ∀ row, P row → IsSlot run.addr run.data row ∧ Q row) : Traced r Q out' where
  answers := hadds.reads ▸ htraced.answers
  rows := by
    intro row hrow
    rw [hadds.reads]
    rcases hadds.rows row hrow with hold | hnew
    · exact htraced.rows row hold
    · obtain ⟨hslot, hQ⟩ := hP row hnew
      exact ⟨⟨run, hrun, hslot⟩, hQ⟩
  copies := hadds.reads ▸ hadds.stash ▸ htraced.copies

theorem worker_out_t.mem_log_read (out : worker_out_t) (run : detail.run_t) : run ∈ (out.log_read run).reads :=
  List.mem_append_right _ (List.mem_singleton_self run)

/-- A sink that keeps the trace keeps it over all runs of a read. -/
theorem worker_out_t.Traced.foldl {sink : worker_out_t → detail.run_t → worker_out_t} (runs : List detail.run_t)
    (hsink : ∀ run ∈ runs, ∀ out, Traced r Q out → Traced r Q (sink out run)) (htraced : Traced r Q out) :
    Traced r Q (runs.foldl sink out) := by
  induction runs generalizing out with
  | nil => exact htraced
  | cons run rest ih =>
    apply ih fun run' hrun' => hsink run' (List.mem_cons_of_mem run hrun')
    exact hsink run (List.mem_cons_self) out htraced

end

end slop.core.memory
