import ReverseSlop.Core.Analysis.Imgpatch.FullPass
import Mathlib.Logic.Relation

namespace slop.core.analysis.imgpatch

open disasm disasm.binary_state

/-- One journaled byte write, or the mark on the indexes. -/
inductive Poked (bin : binary_t) : binary_t → Prop where
  | poke (va : UInt64) (byte : UInt8) : Poked bin (poke bin va byte).2
  | mark : Poked bin { bin with indexes_dirty := true }

/-- All that the operations do that do not write in bulk. -/
def Pokes (bin bin' : binary_t) : Prop := Relation.ReflTransGen Poked bin bin'

theorem Pokes.refl (bin : binary_t) : Pokes bin bin := Relation.ReflTransGen.refl

theorem Pokes.trans {bin bin' bin'' : binary_t} (h : Pokes bin bin') (h' : Pokes bin' bin'') : Pokes bin bin'' :=
  Relation.ReflTransGen.trans h h'

theorem Pokes.mark (bin : binary_t) : Pokes bin { bin with indexes_dirty := true } :=
  Relation.ReflTransGen.single Poked.mark

theorem Pokes.foldl {α : Type} {f : binary_t → α → binary_t} (hbody : ∀ bin a, Pokes bin (f bin a))
    (items : List α) (bin : binary_t) : Pokes bin (items.foldl f bin) := by
  induction items generalizing bin with
  | nil => exact Pokes.refl bin
  | cons a items ih =>
    rw [List.foldl_cons]
    exact (hbody bin a).trans (ih (f bin a))

theorem poke_pokes (bin : binary_t) (va : UInt64) (byte : UInt8) : Pokes bin (poke bin va byte).2 :=
  Relation.ReflTransGen.single (Poked.poke va byte)

theorem poke_nops_pokes (bin : binary_t) (va : UInt64) (first len : Nat) :
    Pokes bin (poke_nops bin va first len) :=
  Pokes.foldl (fun bin b => poke_pokes bin (va + UInt64.ofNat b) 0x90) _ bin

theorem finish_pokes (res : op_result_t) (bin : binary_t) : Pokes bin (finish res bin).2 := by
  rw [finish]
  split
  · exact Pokes.refl bin
  · exact Pokes.mark bin

theorem fill_dead_pokes (targets : List UInt64) (bin : binary_t) (filled : Nat) (head : Bool)
    (insns : List insn_t) : Pokes bin (fill_dead targets bin filled head insns).2 := by
  induction insns generalizing bin filled head with
  | nil => exact Pokes.refl bin
  | cons insn rest ih =>
    rw [fill_dead]
    split
    · exact Pokes.refl bin
    · exact (poke_nops_pokes bin insn.va 0 _).trans (ih _ _ _)

theorem nop_dead_heads_pokes (targets : List UInt64) (bin : binary_t) (prev : insn_t) (insns : List insn_t) :
    Pokes bin (nop_dead_heads targets bin prev insns).2 := by
  induction insns generalizing bin prev with
  | nil => exact Pokes.refl bin
  | cons insn rest ih =>
    rw [nop_dead_heads]
    split
    · exact ih bin insn
    · exact (fill_dead_pokes targets bin 0 true (insn :: rest)).trans (ih _ insn)

theorem nop_junk_pokes (bin : binary_t) (fn_va : UInt64) (aggressive : Bool) (nop_threshold : Nat) :
    Pokes bin (nop_junk bin fn_va aggressive nop_threshold).2 := by
  rw [nop_junk]
  cases decode_fn bin fn_va 8192 with
  | nil => exact Pokes.refl bin
  | cons first rest =>
    cases aggressive with
    | true => exact (nop_dead_heads_pokes _ bin first rest).trans (finish_pokes _ _)
    | false => exact finish_pokes _ bin

theorem force_jmp_pokes (bin : binary_t) (insn : insn_t) : Pokes bin (force_jmp bin insn) := by
  rw [force_jmp]
  split
  · exact poke_pokes bin insn.va 0xEB
  split
  · exact (poke_pokes bin insn.va 0x90).trans (poke_pokes _ (insn.va + 1) 0xE9)
  · exact Pokes.refl bin

theorem force_jumps_pokes (dry_run : Bool) (bin : binary_t) (prev : insn_t) (insns : List insn_t) :
    Pokes bin (force_jumps dry_run bin prev insns).2 := by
  induction insns generalizing bin prev with
  | nil => exact Pokes.refl bin
  | cons insn rest ih =>
    rw [force_jumps]
    split
    · cases dry_run with
      | true => exact ih bin insn
      | false => exact (force_jmp_pokes bin insn).trans (ih _ insn)
    · exact ih bin insn

theorem resolve_opaque_predicates_pokes (bin : binary_t) (fn_va : UInt64) (dry_run : Bool) :
    Pokes bin (resolve_opaque_predicates bin fn_va dry_run).2 := by
  rw [resolve_opaque_predicates]
  cases decode_fn bin fn_va 8192 with
  | nil => exact Pokes.refl bin
  | cons first rest => exact (force_jumps_pokes dry_run bin first rest).trans (finish_pokes _ _)

theorem poke_xor_eax_pokes (bin : binary_t) (va : UInt64) : Pokes bin (poke_xor_eax bin va) :=
  (poke_pokes bin va 0x31).trans (poke_pokes _ (va + 1) 0xC0)

theorem patch_api_call_pokes (dry_run : Bool) (bin : binary_t) (insn : insn_t) (name : String) :
    Pokes bin (patch_api_call dry_run bin insn name).2 := by
  rw [patch_api_call]
  split
  · split
    · exact Pokes.refl bin
    · exact (poke_xor_eax_pokes bin insn.va).trans (poke_nops_pokes _ insn.va 2 _)
  split
  · exact Pokes.refl bin
  · exact poke_nops_pokes bin insn.va 0 _

theorem patch_trap_pokes (opts : anti_debug_opts_t) (dry_run : Bool) (bin : binary_t) (insn : insn_t) :
    Pokes bin (patch_trap opts dry_run bin insn).2 := by
  rw [patch_trap]
  split
  · split
    · exact Pokes.refl bin
    · exact poke_nops_pokes bin insn.va 0 _
  split
  · split
    · exact Pokes.refl bin
    · exact poke_xor_eax_pokes bin insn.va
  · exact Pokes.refl bin

theorem patch_anti_debug_insn_pokes (opts : anti_debug_opts_t) (dry_run : Bool) (bin : binary_t) (insn : insn_t) :
    Pokes bin (patch_anti_debug_insn opts dry_run bin insn).2 := by
  simp only [patch_anti_debug_insn]
  split
  · split
    · exact Pokes.refl bin
    · exact (patch_api_call_pokes dry_run bin insn _).trans (patch_trap_pokes opts dry_run _ insn)
  · exact patch_trap_pokes opts dry_run bin insn

theorem patch_anti_debug_insns_pokes (opts : anti_debug_opts_t) (dry_run : Bool) (bin : binary_t)
    (insns : List insn_t) : Pokes bin (patch_anti_debug_insns opts dry_run bin insns).2 := by
  induction insns generalizing bin with
  | nil => exact Pokes.refl bin
  | cons insn rest ih =>
    rw [patch_anti_debug_insns]
    exact (patch_anti_debug_insn_pokes opts dry_run bin insn).trans (ih _)

theorem patch_anti_debug_pokes (bin : binary_t) (fn_va : UInt64) (opts : anti_debug_opts_t) (dry_run : Bool) :
    Pokes bin (patch_anti_debug bin fn_va opts dry_run).2 :=
  (patch_anti_debug_insns_pokes opts dry_run bin _).trans (finish_pokes _ _)

theorem full_pass_pokes (bin : binary_t) (fn_va : UInt64) (dry_run : Bool) :
    Pokes bin (full_pass bin fn_va dry_run).2 := by
  have hopq := resolve_opaque_predicates_pokes bin fn_va dry_run
  cases dry_run with
  | true => exact hopq.trans (patch_anti_debug_pokes _ fn_va {} true)
  | false => exact (hopq.trans (nop_junk_pokes _ fn_va _ 4)).trans (patch_anti_debug_pokes _ fn_va {} false)

theorem rebuild_pokes (bin : binary_t) (fn_va : UInt64) : Pokes bin (rebuild bin fn_va).2 := by
  rw [rebuild]
  split
  · exact Pokes.refl bin
  · exact Pokes.mark bin

end slop.core.analysis.imgpatch
