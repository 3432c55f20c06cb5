import ReverseSlop.Core.Analysis.Imgpatch.Reversibility
import ReverseSlop.Library.Transition

namespace slop.core.analysis.imgpatch

open disasm disasm.binary_state

/-- Nothing was done to the image, or its indexes are marked stale. -/
def Marked (bin bin' : binary_t) : Prop := bin' = bin ∨ bin'.indexes_dirty = true

theorem Marked.refl (bin : binary_t) : Marked bin bin := Or.inl rfl

theorem Marked.trans {bin bin' bin'' : binary_t} (h : Marked bin bin') (h' : Marked bin' bin'') : Marked bin bin'' := by
  cases h' with
  | inl hsame =>
    rw [hsame]
    exact h
  | inr hdirty => exact Or.inr hdirty

/-- `finish` marks the indexes unless nothing was hit. -/
theorem finish_marked {res : op_result_t} {bin bin' : binary_t} (hquiet : res.patches = [] → bin' = bin) :
    Marked bin (finish res bin').2 := by
  rw [finish]
  cases hpatches : res.patches with
  | nil => exact Or.inl (hquiet hpatches)
  | cons hit hits => exact Or.inr rfl

/-! An operation without a hit leaves the image alone. -/

theorem nop_dead_heads_quiet {targets : List UInt64} {bin : binary_t} {prev : insn_t} {insns : List insn_t}
    (hquiet : (nop_dead_heads targets bin prev insns).1 = []) : (nop_dead_heads targets bin prev insns).2 = bin := by
  induction insns generalizing prev with
  | nil => rfl
  | cons insn rest ih =>
    rw [nop_dead_heads] at hquiet ⊢
    split at hquiet
    · rename_i hskip
      rw [if_pos hskip]
      exact ih hquiet
    · cases hquiet

theorem force_jumps_quiet {dry_run : Bool} {bin : binary_t} {prev : insn_t} {insns : List insn_t}
    (hquiet : (force_jumps dry_run bin prev insns).1 = []) : (force_jumps dry_run bin prev insns).2 = bin := by
  induction insns generalizing prev with
  | nil => rfl
  | cons insn rest ih =>
    rw [force_jumps] at hquiet ⊢
    split at hquiet
    · cases hquiet
    · rename_i hskip
      rw [if_neg hskip]
      exact ih hquiet

theorem patch_trap_quiet {opts : anti_debug_opts_t} {dry_run : Bool} {bin : binary_t} {insn : insn_t}
    (hquiet : (patch_trap opts dry_run bin insn).1 = []) : (patch_trap opts dry_run bin insn).2 = bin := by
  rw [patch_trap] at hquiet ⊢
  split at hquiet
  · cases hquiet
  · rename_i htrap
    rw [if_neg htrap]
    split at hquiet
    · cases hquiet
    · rename_i htiming
      rw [if_neg htiming]

theorem patch_anti_debug_insn_quiet {opts : anti_debug_opts_t} {dry_run : Bool} {bin : binary_t} {insn : insn_t}
    (hquiet : (patch_anti_debug_insn opts dry_run bin insn).1 = []) :
    (patch_anti_debug_insn opts dry_run bin insn).2 = bin := by
  simp only [patch_anti_debug_insn] at hquiet ⊢
  split at hquiet
  · rename_i hslot
    rw [if_pos hslot]
    cases hname : (iat_find bin (call_slot bin insn)).filter fun name => kApis.any (contains_text name) with
    | none => rfl
    | some name =>
      rw [hname] at hquiet
      cases hquiet
  · rename_i hslot
    rw [if_neg hslot]
    exact patch_trap_quiet hquiet

theorem patch_anti_debug_insns_quiet {opts : anti_debug_opts_t} {dry_run : Bool} {bin : binary_t}
    {insns : List insn_t} (hquiet : (patch_anti_debug_insns opts dry_run bin insns).1 = []) :
    (patch_anti_debug_insns opts dry_run bin insns).2 = bin := by
  induction insns with
  | nil => rfl
  | cons insn rest ih =>
    rw [patch_anti_debug_insns] at hquiet ⊢
    obtain ⟨hfirst, hrest⟩ := List.append_eq_nil_iff.mp hquiet
    have hbin := patch_anti_debug_insn_quiet hfirst
    simp only [hbin] at hrest ⊢
    exact ih hrest

/-! Every operation but `revert_all` marks the indexes when it does anything. -/

theorem nop_junk_marked (bin : binary_t) (fn_va : UInt64) (aggressive : Bool) (nop_threshold : Nat) :
    Marked bin (nop_junk bin fn_va aggressive nop_threshold).2 := by
  rw [nop_junk]
  cases decode_fn bin fn_va 8192 with
  | nil => exact Marked.refl bin
  | cons first rest =>
    cases aggressive with
    | true =>
      refine finish_marked fun hnone => ?_
      exact nop_dead_heads_quiet (List.append_eq_nil_iff.mp hnone).2
    | false => exact finish_marked fun _ => rfl

theorem resolve_opaque_predicates_marked (bin : binary_t) (fn_va : UInt64) (dry_run : Bool) :
    Marked bin (resolve_opaque_predicates bin fn_va dry_run).2 := by
  rw [resolve_opaque_predicates]
  cases decode_fn bin fn_va 8192 with
  | nil => exact Marked.refl bin
  | cons first rest => exact finish_marked force_jumps_quiet

theorem patch_anti_debug_marked (bin : binary_t) (fn_va : UInt64) (opts : anti_debug_opts_t) (dry_run : Bool) :
    Marked bin (patch_anti_debug bin fn_va opts dry_run).2 := finish_marked patch_anti_debug_insns_quiet

theorem unpack_with_marked (bin : binary_t) (va : UInt64) (off0 size : Nat) (method : String) (key : List UInt8)
    (res : op_result_t) : Marked bin (unpack_with bin va off0 size method key res).2 := by
  rw [unpack_with.eq_def]
  cases key with
  | nil => exact Marked.refl bin
  | cons first rest =>
    simp only
    split
    · exact Or.inr rfl
    split
    · exact Or.inr rfl
    · exact Marked.refl bin

theorem unpack_xor_marked (bin : binary_t) (va : UInt64) (size : Nat) (method key_hex : String) :
    Marked bin (unpack_xor bin va size method key_hex).2 := by
  rw [unpack_xor]
  split
  · exact Marked.refl bin
  split
  · exact Marked.refl bin
  split
  · split
    · exact Marked.refl bin
    · exact unpack_with_marked bin va _ size method _ _
  · exact unpack_with_marked bin va _ size method _ _

theorem write_bytes_marked (bin : binary_t) (va : UInt64) (bytes : List UInt8) :
    Marked bin (write_bytes bin va bytes).2 := by
  rw [write_bytes]
  split
  · exact Marked.refl bin
  · exact Or.inr rfl

theorem full_pass_marked (bin : binary_t) (fn_va : UInt64) (dry_run : Bool) :
    Marked bin (full_pass bin fn_va dry_run).2 := by
  have hopq := resolve_opaque_predicates_marked bin fn_va dry_run
  cases dry_run with
  | true => exact hopq.trans (patch_anti_debug_marked _ fn_va {} true)
  | false => exact (hopq.trans (nop_junk_marked _ fn_va _ 4)).trans (patch_anti_debug_marked _ fn_va {} false)

theorem rebuild_marked (bin : binary_t) (fn_va : UInt64) : Marked bin (rebuild bin fn_va).2 := by
  rw [rebuild]
  split
  · exact Marked.refl bin
  · exact Or.inr rfl

theorem apply_marked (bin : binary_t) {op : op_t} (hop : op ≠ .revert_all) : Marked bin (apply bin op) := by
  cases op with
  | nop_junk fn_va aggressive nop_threshold => exact nop_junk_marked bin fn_va aggressive nop_threshold
  | resolve_opaque_predicates fn_va dry_run => exact resolve_opaque_predicates_marked bin fn_va dry_run
  | patch_anti_debug fn_va opts dry_run => exact patch_anti_debug_marked bin fn_va opts dry_run
  | unpack_xor va size method key_hex => exact unpack_xor_marked bin va size method key_hex
  | write_bytes va bytes => exact write_bytes_marked bin va bytes
  | full_pass fn_va dry_run => exact full_pass_marked bin fn_va dry_run
  | rebuild fn_va => exact rebuild_marked bin fn_va
  | revert_all => exact absurd rfl hop

/-- `revert_all` marks the indexes exactly when there is something to revert. -/
theorem revert_all_dirty (bin : binary_t) : (revert_all bin).2.indexes_dirty = !bin.patches.isEmpty := by
  have hlength : decide (bin.patches.length > 0) = !bin.patches.isEmpty := by
    cases bin.patches <;> simp
  rw [revert_all]
  cases hpatches : bin.patches.isEmpty <;> simpa [quiesce, hpatches] using hlength

theorem revert_all_nothing {bin : binary_t} (hnone : bin.patches = []) : (revert_all bin).2.file = bin.file := by
  rw [revert_all_file, hnone]
  rfl

/-- Only a `revert_all` of an empty journal takes the mark off. -/
theorem apply_keeps_mark {bin : binary_t} (hdirty : bin.indexes_dirty = true) (op : op_t) :
    (apply bin op).indexes_dirty = true ↔ ¬ (op = .revert_all ∧ bin.patches = []) := by
  by_cases hop : op = .revert_all
  · rw [hop]
    have hflag : (apply bin .revert_all).indexes_dirty = !bin.patches.isEmpty := revert_all_dirty bin
    rw [hflag]
    simp
  · refine iff_of_true ?_ fun h => hop h.1
    cases apply_marked bin hop with
    | inl hsame =>
      rw [hsame]
      exact hdirty
    | inr hmarked => exact hmarked

/-! Runs with the lazy rebuild. -/

/-- An image with the bytes its indexes were last built over. -/
structure indexed_t where
  bin : binary_t
  indexed : List UInt8

inductive index_op_t where
  | op (op : op_t)
  | rebuild_indexes (parsed : Bool)

/-- One step; a tool that needs the indexes rebuilds them when they are marked. -/
def indexed_t.step (s : indexed_t) : index_op_t → Option indexed_t
  | .op op => some { s with bin := apply s.bin op }
  | .rebuild_indexes parsed =>
    if s.bin.indexes_dirty then some { bin := rebuild_indexes_locked s.bin parsed, indexed := s.bin.file }
    else some s

theorem indexed_t.step_op (s : indexed_t) (op : op_t) : s.step (.op op) = some ⟨apply s.bin op, s.indexed⟩ := rfl

theorem indexed_t.step_rebuild {s : indexed_t} (hdirty : s.bin.indexes_dirty = true) (parsed : Bool) :
    s.step (.rebuild_indexes parsed) = some ⟨rebuild_indexes_locked s.bin parsed, s.bin.file⟩ := if_pos hdirty

/-- A journal without records is reverted only while the indexes are not marked. -/
def RevertsMarked (s : indexed_t) (a : index_op_t) : Prop :=
  a = .op .revert_all → s.bin.patches = [] → s.bin.indexes_dirty = false

/-- Indexes that were built over other bytes are marked. -/
def Current (s : indexed_t) : Prop := s.bin.file ≠ s.indexed → s.bin.indexes_dirty = true

theorem Current.step {s s' : indexed_t} {a : index_op_t} (h : Current s) (hok : RevertsMarked s a)
    (hstep : s.step a = some s') : Current s' := by
  cases a with
  | rebuild_indexes parsed =>
    rw [indexed_t.step] at hstep
    split at hstep <;> cases hstep
    · exact fun hdiffer => absurd rfl hdiffer
    · exact h
  | op op =>
    cases hstep
    intro hdiffer
    by_cases hop : op = .revert_all
    · subst hop
      have hflag : (apply s.bin .revert_all).indexes_dirty = !s.bin.patches.isEmpty := revert_all_dirty s.bin
      rw [hflag]
      cases hpatches : s.bin.patches with
      | cons rec recs => rfl
      | nil =>
        have hfile : (apply s.bin .revert_all).file = s.bin.file := revert_all_nothing hpatches
        have hclean := hok rfl hpatches
        rw [hfile] at hdiffer
        rw [h hdiffer] at hclean
        cases hclean
    · cases apply_marked s.bin hop with
      | inl hsame =>
        rw [hsame] at hdiffer ⊢
        exact h hdiffer
      | inr hmarked => exact hmarked

/-- While the indexes are marked, exactly the operations that meet the condition keep
the mark. -/
theorem keeps_mark_iff {s : indexed_t} (hdirty : s.bin.indexes_dirty = true) (op : op_t) :
    (apply s.bin op).indexes_dirty = true ↔ RevertsMarked s (.op op) := by
  rw [apply_keeps_mark hdirty]
  constructor
  · intro hkeeps hop hnone
    rw [index_op_t.op.injEq] at hop
    exact absurd ⟨hop, hnone⟩ hkeeps
  · rintro hok ⟨rfl, hnone⟩
    have hclean := hok rfl hnone
    rw [hdirty] at hclean
    cases hclean

/-- As long as no empty journal is reverted over marked indexes, stale indexes are
marked, and no operation takes the mark off. -/
theorem stale_indexes_marked (bin : binary_t) {s : indexed_t}
    (hreach : Relation.ReflTransGen (Transition.Step RevertsMarked indexed_t.step) ⟨bin, bin.file⟩ s) :
    (s.bin.file ≠ s.indexed → s.bin.indexes_dirty = true) ∧
      ∀ op, s.bin.indexes_dirty = true → ((apply s.bin op).indexes_dirty = true ↔ RevertsMarked s (.op op)) := by
  have hstart : Current ⟨bin, bin.file⟩ := fun hdiffer => absurd rfl hdiffer
  exact ⟨Transition.invariant hstart (fun _ _ _ => Current.step) hreach, fun op hdirty => keeps_mark_iff hdirty op⟩

/-- A byte is written, the indexes are rebuilt over it, and the journal is reverted. -/
def written : indexed_t := ⟨apply sample_image (.write_bytes 0x400000 [0x90]), sample_file⟩

def rebuilt : indexed_t := ⟨rebuild_indexes_locked written.bin true, written.bin.file⟩

def reverted : indexed_t := ⟨apply rebuilt.bin .revert_all, rebuilt.indexed⟩

theorem reverted_differs : reverted.bin.file ≠ reverted.indexed := by decide +kernel

theorem written_dirty : written.bin.indexes_dirty = true := by decide +kernel

theorem reverted_reached {Ok : indexed_t → index_op_t → Prop}
    (hok : ∀ s a, s.bin.indexes_dirty = false ∨ a ≠ .op .revert_all → Ok s a) :
    Relation.ReflTransGen (Transition.Step Ok indexed_t.step) ⟨sample_image, sample_image.file⟩ reverted := by
  have hwrite : Transition.Step Ok indexed_t.step ⟨sample_image, sample_image.file⟩ written :=
    ⟨.op (.write_bytes 0x400000 [0x90]), hok _ _ (Or.inl rfl), indexed_t.step_op _ _⟩
  have hrebuild : Transition.Step Ok indexed_t.step written rebuilt :=
    ⟨.rebuild_indexes true, hok _ _ (Or.inr fun h => by cases h), indexed_t.step_rebuild written_dirty true⟩
  have hrevert : Transition.Step Ok indexed_t.step rebuilt reverted :=
    ⟨.op .revert_all, hok _ _ (Or.inl rfl), indexed_t.step_op _ _⟩
  exact ((Relation.ReflTransGen.single hwrite).tail hrebuild).tail hrevert

/-- The first revert leaves other bytes than the indexes know, and the mark. -/
theorem first_revert_marks_indexes : reverted.bin.indexes_dirty = true := by
  have hreach : Relation.ReflTransGen (Transition.Step RevertsMarked indexed_t.step)
      ⟨sample_image, sample_image.file⟩ reverted := by
    refine reverted_reached fun s a h => ?_
    rintro rfl -
    exact h.resolve_right fun hne => hne rfl
  exact (stale_indexes_marked sample_image hreach).1 reverted_differs

/-- A second revert finds an empty journal and takes the mark off. -/
theorem second_revert_hides_stale_indexes :
    ¬ ∀ (bin : binary_t) (s : indexed_t),
      Relation.ReflTransGen (Transition.Step (fun _ _ => True) indexed_t.step) ⟨bin, bin.file⟩ s →
      s.bin.file ≠ s.indexed → s.bin.indexes_dirty = true := by
  intro hlaw
  let again : indexed_t := ⟨apply reverted.bin .revert_all, reverted.indexed⟩
  have hrevert : Transition.Step (fun _ _ => True) indexed_t.step reverted again := ⟨.op .revert_all, trivial, indexed_t.step_op _ _⟩
  have hreach := (reverted_reached fun _ _ _ => trivial).tail hrevert
  have hdiffer : again.bin.file ≠ again.indexed := by decide +kernel
  have hclean : again.bin.indexes_dirty = false := by decide +kernel
  have hdirty := hlaw sample_image again hreach hdiffer
  rw [hclean] at hdirty
  cases hdirty

end slop.core.analysis.imgpatch
