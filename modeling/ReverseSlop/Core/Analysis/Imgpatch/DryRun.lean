import ReverseSlop.Core.Analysis.Imgpatch.Reversibility

namespace slop.core.analysis.imgpatch

open disasm disasm.binary_state

/-- The call left the image and its journal alone, did not mark the indexes and
reports no byte as changed. -/
def Pure (bin bin' : binary_t) (bytes_changed : Nat) : Prop :=
  bin'.file = bin.file ∧ bin'.patches = bin.patches ∧ bin'.indexes_dirty = bin.indexes_dirty ∧ bytes_changed = 0

/-- A conditional jump behind a self-zeroing instruction. -/
def opaque_site (prev insn : insn_t) : Bool := insn.flow = .jcc && self_zeroing prev

/-- The name of the listed API behind a slot. -/
def listed_api (bin : binary_t) (slot : UInt64) : Option String :=
  (iat_find bin slot).filter fun name => kApis.any (contains_text name)

/-- A trap or a time stamp read that the options ask for. -/
def trap_site (opts : anti_debug_opts_t) (insn : insn_t) : Bool :=
  (opts.patch_int_traps && (insn.mnemonic = .INT3 || insn.mnemonic = .INT)) ||
    (opts.patch_timing && insn.mnemonic = .RDTSC)

/-- A call or jump through a memory slot, where the options ask for calls. -/
def through_slot (opts : anti_debug_opts_t) (bin : binary_t) (insn : insn_t) : Bool :=
  opts.patch_api_calls && (insn.flow = .call || insn.flow = .jmp) && call_slot bin insn != 0

def anti_debug_site (opts : anti_debug_opts_t) (bin : binary_t) (insn : insn_t) : Bool :=
  if through_slot opts bin insn then (listed_api bin (call_slot bin insn)).isSome else trap_site opts insn

/-! A dry run finds the sites and leaves the image alone. -/

theorem force_jumps_dry (bin : binary_t) (prev : insn_t) (insns : List insn_t) :
    (force_jumps true bin prev insns).2 = bin := by
  induction insns generalizing prev with
  | nil => rfl
  | cons insn rest ih =>
    rw [force_jumps]
    split <;> exact ih insn

theorem force_jumps_hits (dry_run : Bool) (bin : binary_t) (prev : insn_t) (insns : List insn_t) :
    (force_jumps dry_run bin prev insns).1 = [] ↔ (prev :: insns).IsChain fun prev insn => opaque_site prev insn = false := by
  induction insns generalizing bin prev with
  | nil => exact iff_of_true rfl (.singleton prev)
  | cons insn rest ih =>
    rw [force_jumps, List.isChain_cons_cons, ← ih bin insn, opaque_site]
    cases hsite : decide (insn.flow = .jcc) && self_zeroing prev with
    | true => simp
    | false => simp

theorem patch_trap_dry (opts : anti_debug_opts_t) (bin : binary_t) (insn : insn_t) :
    (patch_trap opts true bin insn).2 = bin := by
  rw [patch_trap]
  split
  · rfl
  split <;> rfl

theorem patch_trap_hits (opts : anti_debug_opts_t) (dry_run : Bool) (bin : binary_t) (insn : insn_t) :
    (patch_trap opts dry_run bin insn).1 = [] ↔ trap_site opts insn = false := by
  rw [patch_trap, trap_site]
  cases opts.patch_int_traps && (decide (insn.mnemonic = .INT3) || decide (insn.mnemonic = .INT)) with
  | true => simp
  | false => cases opts.patch_timing && decide (insn.mnemonic = .RDTSC) <;> simp

theorem patch_api_call_dry (bin : binary_t) (insn : insn_t) (name : String) :
    (patch_api_call true bin insn name).2 = bin := by
  rw [patch_api_call]
  split <;> rfl

theorem patch_anti_debug_insn_dry (opts : anti_debug_opts_t) (bin : binary_t) (insn : insn_t) :
    (patch_anti_debug_insn opts true bin insn).2 = bin := by
  simp only [patch_anti_debug_insn]
  split
  · split
    · rfl
    · simp only [patch_api_call_dry, patch_trap_dry]
  · exact patch_trap_dry opts bin insn

theorem patch_anti_debug_insn_hits (opts : anti_debug_opts_t) (dry_run : Bool) (bin : binary_t) (insn : insn_t) :
    (patch_anti_debug_insn opts dry_run bin insn).1 = [] ↔ anti_debug_site opts bin insn = false := by
  simp only [patch_anti_debug_insn]
  split
  · rename_i hslot
    have hthrough : through_slot opts bin insn = true := hslot
    rw [anti_debug_site, if_pos hthrough, listed_api]
    cases (iat_find bin (call_slot bin insn)).filter fun name => kApis.any (contains_text name) <;> simp
  · rename_i hslot
    have hthrough : ¬ through_slot opts bin insn = true := hslot
    rw [anti_debug_site, if_neg hthrough]
    exact patch_trap_hits opts dry_run bin insn

theorem patch_anti_debug_insns_dry (opts : anti_debug_opts_t) (bin : binary_t) (insns : List insn_t) :
    (patch_anti_debug_insns opts true bin insns).2 = bin := by
  induction insns with
  | nil => rfl
  | cons insn rest ih =>
    rw [patch_anti_debug_insns]
    simp only [patch_anti_debug_insn_dry]
    exact ih

theorem patch_anti_debug_insns_hits (opts : anti_debug_opts_t) (bin : binary_t) (insns : List insn_t) :
    (patch_anti_debug_insns opts true bin insns).1 = [] ↔ ∀ insn ∈ insns, anti_debug_site opts bin insn = false := by
  induction insns with
  | nil => simp [patch_anti_debug_insns]
  | cons insn rest ih =>
    rw [patch_anti_debug_insns]
    simp only [patch_anti_debug_insn_dry, List.append_eq_nil_iff, patch_anti_debug_insn_hits, ih, List.forall_mem_cons]

/-- No conditional jump of the function follows a self-zeroing instruction. -/
def NoOpaqueSite (bin : binary_t) (fn_va : UInt64) : Prop :=
  (decode_fn bin fn_va 8192).IsChain fun prev insn => opaque_site prev insn = false

/-- No instruction of the function is an anti-debug site. -/
def NoAntiDebugSite (opts : anti_debug_opts_t) (bin : binary_t) (fn_va : UInt64) : Prop :=
  ∀ insn ∈ decode_fn bin fn_va 8192, anti_debug_site opts bin insn = false

theorem force_jumps_actions (dry_run : Bool) (bin : binary_t) (prev : insn_t) (insns : List insn_t) :
    ∀ p ∈ (force_jumps dry_run bin prev insns).1, p.action ≠ "preview" := by
  induction insns generalizing bin prev with
  | nil => exact List.forall_mem_nil _
  | cons insn rest ih =>
    rw [force_jumps]
    split
    · refine List.forall_mem_cons.mpr ⟨?_, ih _ insn⟩
      simp
    · exact ih bin insn

theorem patch_trap_actions (opts : anti_debug_opts_t) (dry_run : Bool) (bin : binary_t) (insn : insn_t) :
    ∀ p ∈ (patch_trap opts dry_run bin insn).1, p.action ≠ "preview" := by
  rw [patch_trap]
  split
  · simp
  split <;> simp

theorem patch_api_call_action (dry_run : Bool) (bin : binary_t) (insn : insn_t) (name : String) :
    (patch_api_call dry_run bin insn name).1.action ≠ "preview" := by
  rw [patch_api_call]
  split
  · simp
  split <;> simp

theorem patch_anti_debug_insn_actions (opts : anti_debug_opts_t) (dry_run : Bool) (bin : binary_t) (insn : insn_t) :
    ∀ p ∈ (patch_anti_debug_insn opts dry_run bin insn).1, p.action ≠ "preview" := by
  simp only [patch_anti_debug_insn]
  split
  · split
    · exact List.forall_mem_nil _
    · exact List.forall_mem_cons.mpr ⟨patch_api_call_action dry_run bin insn _, patch_trap_actions opts dry_run _ insn⟩
  · exact patch_trap_actions opts dry_run bin insn

theorem patch_anti_debug_insns_actions (opts : anti_debug_opts_t) (dry_run : Bool) (bin : binary_t)
    (insns : List insn_t) : ∀ p ∈ (patch_anti_debug_insns opts dry_run bin insns).1, p.action ≠ "preview" := by
  induction insns generalizing bin with
  | nil => exact List.forall_mem_nil _
  | cons insn rest ih =>
    rw [patch_anti_debug_insns]
    exact List.forall_mem_append.mpr ⟨patch_anti_debug_insn_actions opts dry_run bin insn, ih _⟩

/-- The epilogue after a dry run: without a hit it changes nothing, with one it marks
the indexes and counts. -/
theorem finish_cases {res : op_result_t} {bin : binary_t} (hactions : ∀ p ∈ res.patches, p.action ≠ "preview")
    (hzero : res.bytes_changed = 0) :
    (res.patches = [] ∧ (finish res bin).2 = bin ∧ (finish res bin).1.bytes_changed = 0) ∨
      (res.patches ≠ [] ∧ (finish res bin).2 = { bin with indexes_dirty := true } ∧
        (finish res bin).1.bytes_changed ≠ 0) := by
  have hcount : (finish res bin).1.bytes_changed = res.patches.length := by
    have hall : res.patches.filter (fun p => p.action != "preview") = res.patches :=
      List.filter_eq_self.mpr fun p hp => bne_iff_ne.mpr (hactions p hp)
    rw [finish, hall, hzero, Nat.zero_add]
  cases hpatches : res.patches with
  | nil =>
    refine Or.inl ⟨rfl, ?_, by rw [hcount, hpatches, List.length_nil]⟩
    rw [finish, hpatches]
    rfl
  | cons hit hits =>
    refine Or.inr ⟨List.cons_ne_nil hit hits, ?_, by rw [hcount, hpatches]; exact Nat.succ_ne_zero _⟩
    rw [finish, hpatches]
    rfl

theorem resolve_dry_cases (bin : binary_t) (fn_va : UInt64) :
    (NoOpaqueSite bin fn_va ∧ (resolve_opaque_predicates bin fn_va true).2 = bin ∧
        (resolve_opaque_predicates bin fn_va true).1.bytes_changed = 0) ∨
      (¬ NoOpaqueSite bin fn_va ∧ (resolve_opaque_predicates bin fn_va true).2 = { bin with indexes_dirty := true } ∧
        (resolve_opaque_predicates bin fn_va true).1.bytes_changed ≠ 0) := by
  rw [resolve_opaque_predicates, NoOpaqueSite]
  cases decode_fn bin fn_va 8192 with
  | nil => exact Or.inl ⟨.nil, rfl, rfl⟩
  | cons first rest =>
    rw [← force_jumps_hits true bin first rest]
    simp only [force_jumps_dry]
    exact @finish_cases { dry_run := true, patches := (force_jumps true bin first rest).1 } bin
      (force_jumps_actions true bin first rest) rfl

theorem patch_anti_debug_dry_cases (opts : anti_debug_opts_t) (bin : binary_t) (fn_va : UInt64) :
    (NoAntiDebugSite opts bin fn_va ∧ (patch_anti_debug bin fn_va opts true).2 = bin ∧
        (patch_anti_debug bin fn_va opts true).1.bytes_changed = 0) ∨
      (¬ NoAntiDebugSite opts bin fn_va ∧ (patch_anti_debug bin fn_va opts true).2 = { bin with indexes_dirty := true } ∧
        (patch_anti_debug bin fn_va opts true).1.bytes_changed ≠ 0) := by
  rw [patch_anti_debug, NoAntiDebugSite, ← patch_anti_debug_insns_hits]
  simp only [patch_anti_debug_insns_dry]
  exact @finish_cases
    { dry_run := true, patches := (patch_anti_debug_insns opts true bin (decode_fn bin fn_va 8192)).1 } bin
    (patch_anti_debug_insns_actions opts true bin _) rfl

theorem pure_mark_iff (bin : binary_t) : Pure bin { bin with indexes_dirty := true } 0 ↔ bin.indexes_dirty = true :=
  ⟨fun h => h.2.2.1.symm, fun h => ⟨rfl, rfl, h.symm, rfl⟩⟩

theorem full_pass_dry_bin (bin : binary_t) (fn_va : UInt64) :
    (full_pass bin fn_va true).2 = (patch_anti_debug (resolve_opaque_predicates bin fn_va true).2 fn_va {} true).2 := by
  simp only [full_pass, if_pos]

theorem full_pass_dry_bytes (bin : binary_t) (fn_va : UInt64) : (full_pass bin fn_va true).1.bytes_changed = 0 := by
  simp only [full_pass, if_pos]

theorem full_pass_dry_pure_iff (bin : binary_t) (fn_va : UInt64) :
    Pure bin (full_pass bin fn_va true).2 (full_pass bin fn_va true).1.bytes_changed ↔
      bin.indexes_dirty = true ∨ (NoOpaqueSite bin fn_va ∧ NoAntiDebugSite {} bin fn_va) := by
  rw [full_pass_dry_bytes, full_pass_dry_bin]
  obtain ⟨hopq, hbin, -⟩ | ⟨hopq, hbin, -⟩ := resolve_dry_cases bin fn_va
  · rw [hbin]
    obtain ⟨had, hbin', -⟩ | ⟨had, hbin', -⟩ := patch_anti_debug_dry_cases {} bin fn_va
    · rw [hbin']
      exact iff_of_true ⟨rfl, rfl, rfl, rfl⟩ (Or.inr ⟨hopq, had⟩)
    · rw [hbin', pure_mark_iff]
      exact ⟨Or.inl, fun h => h.resolve_right fun hclean => had hclean.2⟩
  · rw [hbin]
    have hmark : (patch_anti_debug { bin with indexes_dirty := true } fn_va {} true).2 =
        { bin with indexes_dirty := true } := by
      obtain ⟨-, hbin', -⟩ | ⟨-, hbin', -⟩ := patch_anti_debug_dry_cases {} { bin with indexes_dirty := true } fn_va
      · exact hbin'
      · exact hbin'
    rw [hmark, pure_mark_iff]
    exact ⟨Or.inl, fun h => h.resolve_right fun hclean => hopq hclean.1⟩

/-- A dry run is pure exactly when it finds nothing; the full pass, whose count is
right, also when the indexes are marked already. -/
theorem dry_run_pure_iff (bin : binary_t) (fn_va : UInt64) (opts : anti_debug_opts_t) :
    (Pure bin (resolve_opaque_predicates bin fn_va true).2 (resolve_opaque_predicates bin fn_va true).1.bytes_changed ↔
        NoOpaqueSite bin fn_va) ∧
      (Pure bin (patch_anti_debug bin fn_va opts true).2 (patch_anti_debug bin fn_va opts true).1.bytes_changed ↔
        NoAntiDebugSite opts bin fn_va) ∧
      (Pure bin (full_pass bin fn_va true).2 (full_pass bin fn_va true).1.bytes_changed ↔
        bin.indexes_dirty = true ∨ (NoOpaqueSite bin fn_va ∧ NoAntiDebugSite {} bin fn_va)) := by
  refine ⟨?_, ?_, full_pass_dry_pure_iff bin fn_va⟩
  · obtain ⟨hclean, hbin, hbytes⟩ | ⟨hsite, -, hbytes⟩ := resolve_dry_cases bin fn_va
    · rw [hbin, hbytes]
      exact iff_of_true ⟨rfl, rfl, rfl, rfl⟩ hclean
    · exact iff_of_false (fun h => hbytes h.2.2.2) hsite
  · obtain ⟨hclean, hbin, hbytes⟩ | ⟨hsite, -, hbytes⟩ := patch_anti_debug_dry_cases opts bin fn_va
    · rw [hbin, hbytes]
      exact iff_of_true ⟨rfl, rfl, rfl, rfl⟩ hclean
    · exact iff_of_false (fun h => hbytes h.2.2.2) hsite

/-- A previewed opaque jump marks the indexes and counts as a changed byte. -/
theorem preview_marks_indexes :
    let bin := apply sample_image (.write_bytes 0x400000 [0x31, 0xC0, 0x74, 0x05])
    let bin := rebuild_indexes_locked bin true
    let res := resolve_opaque_predicates bin 0x400000 true
    res.2.indexes_dirty ≠ bin.indexes_dirty ∧ res.1.bytes_changed = 1 := by
  decide +kernel

end slop.core.analysis.imgpatch
