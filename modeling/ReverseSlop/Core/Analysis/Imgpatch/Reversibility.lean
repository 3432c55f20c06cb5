import ReverseSlop.Core.Analysis.Imgpatch.Pokes

namespace slop.core.analysis.imgpatch

open disasm disasm.binary_state

/-! Every operation journals all its writes. -/

theorem Pokes.journaled {bin bin' : binary_t} (h : Pokes bin bin') : Journaled bin bin' := by
  induction h with
  | refl => exact Journal.Advances.refl bin
  | tail _ hpoked ih =>
    refine ih.trans ?_
    cases hpoked with
    | poke va byte => exact poke_journaled _ va byte
    | mark => exact Journal.Advances.of_eq rfl rfl

theorem journal_bytes_journaled (bin : binary_t) (va : UInt64) (off : Nat) (bytes : List UInt8) :
    Journaled bin (journal_bytes bin va off bytes) := by
  refine Journal.Advances.foldl id ?_ _ bin
  intro bin p
  exact journal_write_journaled bin _ _ p.1

theorem write_bytes_journaled (bin : binary_t) (va : UInt64) (bytes : List UInt8) :
    Journaled bin (write_bytes bin va bytes).2 := by
  rw [write_bytes]
  cases (bin.offset_of va).filter fun off => off + bytes.length ≤ bin.file.length with
  | none => exact Journal.Advances.refl bin
  | some off =>
    have hbytes := (quiesce_journaled bin).trans (journal_bytes_journaled _ va off bytes)
    exact hbytes.trans (Journal.Advances.of_eq rfl rfl)

theorem xor_region_journaled (bin : binary_t) (va : UInt64) (off0 size : Nat) (key : List UInt8) :
    Journaled bin (xor_region bin va off0 size key) :=
  Journal.Advances.foldl id (fun bin i => journal_write_journaled bin _ (off0 + i) _) _ bin

theorem xor_rolling_journaled (bin : binary_t) (va : UInt64) (off0 size : Nat) (rolling : UInt8) :
    Journaled bin (xor_rolling bin va off0 size rolling).2 := by
  refine Journal.Advances.foldl Prod.snd ?_ _ (rolling, bin)
  intro acc i
  exact journal_write_journaled acc.2 _ (off0 + i) _

theorem unpack_with_journaled (bin : binary_t) (va : UInt64) (off0 size : Nat) (method : String) (key : List UInt8)
    (res : op_result_t) : Journaled bin (unpack_with bin va off0 size method key res).2 := by
  rw [unpack_with.eq_def]
  cases key with
  | nil => exact Journal.Advances.refl bin
  | cons first rest =>
    simp only
    split
    · exact (xor_region_journaled bin va off0 size _).trans (Journal.Advances.of_eq rfl rfl)
    split
    · exact (xor_rolling_journaled bin va off0 size first).trans (Journal.Advances.of_eq rfl rfl)
    · exact Journal.Advances.refl bin

theorem unpack_xor_journaled (bin : binary_t) (va : UInt64) (size : Nat) (method key_hex : String) :
    Journaled bin (unpack_xor bin va size method key_hex).2 := by
  rw [unpack_xor]
  split
  · exact Journal.Advances.refl bin
  split
  · exact Journal.Advances.refl bin
  split
  · split
    · exact Journal.Advances.refl bin
    · exact unpack_with_journaled bin va _ size method _ _
  · exact unpack_with_journaled bin va _ size method _ _

/-! Runs of operations. -/

/-- A call of one of the operations on the image. -/
inductive op_t where
  | nop_junk (fn_va : UInt64) (aggressive : Bool) (nop_threshold : Nat)
  | resolve_opaque_predicates (fn_va : UInt64) (dry_run : Bool)
  | patch_anti_debug (fn_va : UInt64) (opts : anti_debug_opts_t) (dry_run : Bool)
  | unpack_xor (va : UInt64) (size : Nat) (method key_hex : String)
  | write_bytes (va : UInt64) (bytes : List UInt8)
  | full_pass (fn_va : UInt64) (dry_run : Bool)
  | rebuild (fn_va : UInt64)
  | revert_all

/-- The image after a call, whether it succeeds or fails. -/
def apply (bin : binary_t) (op : op_t) : binary_t :=
  match op with
  | .nop_junk fn_va aggressive nop_threshold => (nop_junk bin fn_va aggressive nop_threshold).2
  | .resolve_opaque_predicates fn_va dry_run => (resolve_opaque_predicates bin fn_va dry_run).2
  | .patch_anti_debug fn_va opts dry_run => (patch_anti_debug bin fn_va opts dry_run).2
  | .unpack_xor va size method key_hex => (unpack_xor bin va size method key_hex).2
  | .write_bytes va bytes => (write_bytes bin va bytes).2
  | .full_pass fn_va dry_run => (full_pass bin fn_va dry_run).2
  | .rebuild fn_va => (rebuild bin fn_va).2
  | .revert_all => (revert_all bin).2

def run (bin : binary_t) (ops : List op_t) : binary_t := ops.foldl apply bin

/-- Replaying the journal backwards gives the original file. -/
def Reversible (original : List UInt8) (bin : binary_t) : Prop :=
  Journal.Restores restore binary_t.file binary_t.patches original bin

theorem revert_all_patches (bin : binary_t) : (revert_all bin).2.patches = [] := rfl

/-- `revert_all` is the replay. -/
theorem revert_all_file (bin : binary_t) : (revert_all bin).2.file = Journal.rollback restore bin.patches bin.file := by
  rw [revert_all]
  cases hpatches : bin.patches.isEmpty <;> exact List.foldl_reverse

theorem revert_all_reversible {original : List UInt8} {bin : binary_t} (h : Reversible original bin) :
    (revert_all bin).2.file = original := (revert_all_file bin).trans h

theorem apply_reversible {original : List UInt8} {bin : binary_t} (h : Reversible original bin) (op : op_t) :
    Reversible original (apply bin op) := by
  cases op with
  | nop_junk fn_va aggressive nop_threshold => exact h.advance (nop_junk_pokes bin fn_va aggressive nop_threshold).journaled
  | resolve_opaque_predicates fn_va dry_run => exact h.advance (resolve_opaque_predicates_pokes bin fn_va dry_run).journaled
  | patch_anti_debug fn_va opts dry_run => exact h.advance (patch_anti_debug_pokes bin fn_va opts dry_run).journaled
  | unpack_xor va size method key_hex => exact h.advance (unpack_xor_journaled bin va size method key_hex)
  | write_bytes va bytes => exact h.advance (write_bytes_journaled bin va bytes)
  | full_pass fn_va dry_run => exact h.advance (full_pass_pokes bin fn_va dry_run).journaled
  | rebuild fn_va => exact h.advance (rebuild_pokes bin fn_va).journaled
  | revert_all =>
    have hstart : Reversible (revert_all bin).2.file (revert_all bin).2 := Journal.Restores.start (revert_all_patches bin)
    rw [revert_all_reversible h] at hstart
    exact hstart

theorem run_reversible {original : List UInt8} {bin : binary_t} (h : Reversible original bin) (ops : List op_t) :
    Reversible original (run bin ops) := by
  induction ops generalizing bin with
  | nil => exact h
  | cons op ops ih => exact ih (apply_reversible h op)

/-- After any calls on a loaded image, `revert_all` gives the loaded file back
and leaves the journal empty. -/
theorem revert_all_restores {loader : loader_t} {g_bin bin : binary_t} {raw : List UInt8} {base_override : UInt64}
    (hload : load_locked loader g_bin raw base_override = some bin) (ops : List op_t) :
    (revert_all (run bin ops)).2.file = bin.file ∧ (revert_all (run bin ops)).2.patches = [] := by
  have hstart : Reversible bin.file bin := Journal.Restores.start (load_locked_patches hload)
  exact ⟨revert_all_reversible (run_reversible hstart ops), revert_all_patches _⟩

/-- Decodes `xor eax, eax` and the short forms of `jz` and `jmp`. -/
def sample_decode (va : UInt64) (buf : List UInt8) : Option insn_t :=
  match buf with
  | 0x31 :: 0xC0 :: _ =>
    some { va, length := 2, bytes := [0x31, 0xC0], mnemonic := .XOR, ops := [{ cls := .reg, reg := 37 }, { cls := .reg, reg := 37 }] }
  | 0x74 :: rel :: _ => some { va, length := 2, bytes := [0x74, rel], flow := .jcc }
  | 0xEB :: rel :: _ => some { va, length := 2, bytes := [0xEB, rel], flow := .jmp }
  | _ => none

def sample_file : List UInt8 := List.replicate 1024 0

def sample_loader : loader_t where
  open_image := fun raw => { ok := true, file := raw, pe := { pe32plus := true, image_base := 0x400000 } }
  init := fun _ => some ⟨sample_decode⟩
  start := fun _ _ => true
  build_indexes := fun _ _ _ => true

def sample_image : binary_t :=
  { ready := true, file := sample_file, pe := { pe32plus := true, image_base := 0x400000 }, base := 0x400000,
    eng := ⟨sample_decode⟩, hype := some { running := true } }

/-- Code is written, its jump forced, the jump encrypted and overwritten. -/
def sample_ops : List op_t :=
  [.write_bytes 0x400000 [0x31, 0xC0, 0x74, 0x05], .resolve_opaque_predicates 0x400000 false,
    .unpack_xor 0x400002 2 "xor_rolling" "5A", .nop_junk 0x400002 true 4, .write_bytes 0x400001 [0x90, 0x90]]

theorem sample_loaded : load_locked sample_loader sample_image sample_file 0 = some sample_image := by
  have hsize : ¬ sample_file.length < 1024 := by
    rw [sample_file, List.length_replicate]
    exact Nat.lt_irrefl 1024
  rw [load_locked, if_neg hsize]
  rfl

theorem revert_all_restores_overlapping :
    (run sample_image sample_ops).file.take 4 = [0x31, 0x90, 0x90, 0xEE] ∧
      (revert_all (run sample_image sample_ops)).2.file = sample_file ∧
      (revert_all (run sample_image sample_ops)).2.patches = [] :=
  ⟨by decide +kernel, revert_all_restores sample_loaded sample_ops⟩

end slop.core.analysis.imgpatch
