import ReverseSlop.Core.Analysis.Xray.Blocks

namespace slop.core.analysis.xray

open disasm (insn_t)
open Pieces (pieces mem_pieces pairwise_pieces exists_piece)

/-- A block has an instruction up to its end. -/
def block_t.Covers (b : block_t) (insn : insn_t) : Prop :=
  b.start ≤ insn.va.toNat ∧ insn.va.toNat + insn.length.toNat ≤ b.stop

/-- Blocks that partition the instructions from an address on. -/
structure Partitioned (va : UInt64) (insns : List insn_t) (blocks : List block_t) : Prop where
  sorted : blocks.Pairwise fun b c => b.stop ≤ c.start
  inside : ∀ b ∈ blocks, va.toNat ≤ b.start ∧ b.start < b.stop ∧ b.stop ≤ (range_end va insns).toNat
  covered : ∀ insn ∈ insns, ∃! b, b ∈ blocks ∧ b.Covers insn
  leaves : ∀ b ∈ blocks, ∀ insn ∈ insns, b.start ≤ insn.va.toNat → insn.va.toNat < b.stop → Leaves insn →
    insn.va.toNat + insn.length.toNat = b.stop
  successors : ∀ b ∈ blocks, ∀ t ∈ b.successors, va.toNat ≤ t → t < (range_end va insns).toNat → ∃ c ∈ blocks, c.start = t

/-- Instructions that end below the end of the address space, with an indirect jump at the end only, with all targets of
jumps in the range at instructions and none before it, and with a head behind each instruction that leaves a block. -/
structure Regular (va : UInt64) (insns : List insn_t) : Prop where
  fits : va.toNat + extent insns < 2 ^ 64
  tail : ∀ insn ∈ insns, Indirect insn → behind insn = range_end va insns
  targets : ∀ insn ∈ insns, Branch insn → va ≤ insn.rel_target ∧
    (insn.rel_target < range_end va insns → ∃ x ∈ insns, x.va = insn.rel_target)
  ends : ∀ insn ∈ insns, Leaves insn → behind insn = range_end va insns ∨
    (Branch insn ∧ (behind insn).toNat + 16 < 2 ^ 64) ∨ ∃ x ∈ insns, Branch x ∧ x.rel_target = behind insn

section

variable {va : UInt64} {insns : List insn_t} {heads : List Nat} {blocks : List block_t} {b c : block_t} {insn x : insn_t} {a : Nat}

theorem lt_add_sixteen (va : UInt64) : va < va + 16 ↔ va.toNat + 16 < 2 ^ 64 := by
  have hva := va.toNat_lt
  have hsum : (va + 16).toNat = (va.toNat + 16) % 2 ^ 64 := UInt64.toNat_add va 16
  rw [UInt64.lt_iff_toNat_lt, hsum]
  omega

theorem CutAt.le_end (h : CutAt va insns heads blocks) : ∀ a ∈ heads, a ≤ scan_end va insns :=
  fun a ha => ((h.mem a).mp ha).2

/-- A block is from a head to the next one, or to the end of the scan. -/
theorem CutAt.block (h : CutAt va insns heads blocks) (hb : b ∈ blocks) :
    b.start ∈ heads ∧ b.start < b.stop ∧ (b.stop ∈ heads ∨ b.stop = scan_end va insns) ∧ ∀ c ∈ heads, b.start < c → b.stop ≤ c := by
  have hspan : span b ∈ pieces (scan_end va insns) heads := h.spans ▸ List.mem_map_of_mem hb
  exact (mem_pieces h.le_end h.sorted).mp hspan

theorem CutAt.stop_le (h : CutAt va insns heads blocks) (hb : b ∈ blocks) : b.stop ≤ scan_end va insns := by
  rcases (h.block hb).2.2.1 with hstop | hstop
  · exact h.le_end _ hstop
  · exact hstop.le

theorem CutAt.pairwise (h : CutAt va insns heads blocks) : blocks.Pairwise fun b c => b.stop ≤ c.start := by
  have hpairwise := pairwise_pieces h.le_end h.sorted
  rw [← h.spans, List.pairwise_map] at hpairwise
  exact hpairwise

/-- What is between the first head and the end of the scan is in a block. -/
theorem CutAt.exists_block (h : CutAt va insns heads blocks) (hfirst : ∃ c ∈ heads, c ≤ a) (ha : a < scan_end va insns) :
    ∃ b ∈ blocks, b.start ≤ a ∧ a < b.stop := by
  obtain ⟨q, hq, hin⟩ := exists_piece h.le_end h.sorted hfirst ha
  rw [← h.spans] at hq
  obtain ⟨b, hb, rfl⟩ := List.mem_map.mp hq
  exact ⟨b, hb, hin⟩

/-- At a head there is a block, unless it is the end of the scan. -/
theorem CutAt.exists_start (h : CutAt va insns heads blocks) (ha : a ∈ heads) (hlt : a < scan_end va insns) :
    ∃ b ∈ blocks, b.start = a := by
  obtain ⟨b, hb, hle, hstop⟩ := h.exists_block ⟨a, ha, Nat.le_refl a⟩ hlt
  have hmin := (h.block hb).2.2.2 a ha
  exact ⟨b, hb, by omega⟩

theorem eq_of_meet (hsorted : blocks.Pairwise fun b c => b.stop ≤ c.start) (hb : b ∈ blocks) (hc : c ∈ blocks)
    (hbin : b.start ≤ a ∧ a < b.stop) (hcin : c.start ≤ a ∧ a < c.stop) : b = c := by
  let Meet (b c : block_t) : Prop := b.start ≤ a ∧ a < b.stop → c.start ≤ a ∧ a < c.stop → b = c
  have hforward : blocks.Pairwise Meet := hsorted.imp fun hle hbin hcin => by omega
  have hback : blocks.Pairwise (flip Meet) := hsorted.imp fun hle hbin hcin => by omega
  exact List.Pairwise.forall_of_forall_of_flip (fun _ _ _ _ => rfl) hforward hback hb hc hbin hcin

theorem CutAt.successors (h : CutAt va insns heads blocks) (hb : b ∈ blocks) (ha : a ∈ b.successors)
    (hlt : a < scan_end va insns) : ∃ c ∈ blocks, c.start = a := by
  rcases h.targets b hb a ha with ⟨insn, hinsn, hbranch, rfl⟩ | ⟨q, hq, rfl⟩
  · exact h.exists_start ((h.mem _).mpr ⟨Or.inr ⟨insn, hinsn, hbranch, Or.inl rfl⟩, hlt.le⟩) hlt
  · rw [← h.spans] at hq
    obtain ⟨c, hc, rfl⟩ := List.mem_map.mp hq
    exact ⟨c, hc, rfl⟩

/-- The heads of a regular function are at its instructions, or at its end. -/
theorem Regular.head (hrun : Run va insns) (hregular : Regular va insns) (hcut : CutAt va insns heads blocks) (ha : a ∈ heads) :
    va.toNat ≤ a ∧ (a < (range_end va insns).toNat → ∃ x ∈ insns, x.va.toNat = a) := by
  have hplaced := placed_of_run hrun hregular.fits
  obtain ⟨rfl | ⟨insn, hinsn, hbranch, rfl | ⟨rfl, -⟩⟩, -⟩ := (hcut.mem a).mp ha
  · refine ⟨Nat.le_refl _, fun hlt => ?_⟩
    obtain ⟨x, hx, hle, -⟩ := hplaced.located va.toNat (Nat.le_refl _) hlt
    exact ⟨x, hx, Nat.le_antisymm hle (hplaced.inside x hx).1⟩
  · obtain ⟨hge, hat⟩ := hregular.targets insn (mem_of_mem_scanned hinsn) hbranch
    refine ⟨UInt64.le_iff_toNat_le.mp hge, fun hlt => ?_⟩
    obtain ⟨x, hx, hxa⟩ := hat (UInt64.lt_iff_toNat_lt.mpr hlt)
    exact ⟨x, hx, by rw [hxa]⟩
  · have hmem := mem_of_mem_scanned hinsn
    obtain ⟨hge, hlt, -⟩ := hplaced.inside insn hmem
    refine ⟨by omega, fun hend => ?_⟩
    obtain ⟨x, hx, hxa⟩ := hplaced.next hmem fun heq => absurd hend (by rw [heq]; exact Nat.lt_irrefl _)
    exact ⟨x, hx, by rw [hxa]⟩

/-- A block of a regular function that has the start of an instruction has all of it. -/
theorem Regular.behind_le (hrun : Run va insns) (hregular : Regular va insns) (hcut : CutAt va insns heads blocks)
    (hend : scan_end va insns = (range_end va insns).toNat) (hb : b ∈ blocks) (hinsn : insn ∈ insns)
    (hlt : insn.va.toNat < b.stop) : (behind insn).toNat ≤ b.stop := by
  have hplaced := placed_of_run hrun hregular.fits
  have hin := hplaced.inside insn hinsn
  rcases (hcut.block hb).2.2.1 with hstop | hstop
  · by_contra hover
    have hbelow : b.stop < (range_end va insns).toNat := by omega
    obtain ⟨x, hx, hxa⟩ := (hregular.head hrun hcut hstop).2 hbelow
    have hxin := hplaced.inside x hx
    have hsame := hplaced.eq_of_meet hinsn hx (by omega) (by omega)
    rw [hsame] at hlt
    omega
  · rw [hstop, hend]
    exact hin.2.2.1

/-- The blocks of a regular function partition it. -/
theorem Regular.partitioned (hrun : Run va insns) (hregular : Regular va insns) (hcut : CutAt va insns heads blocks) :
    Partitioned va insns blocks := by
  have hplaced := placed_of_run hrun hregular.fits
  have hscanned := scanned_eq hrun hregular.fits hregular.tail
  have hend : scan_end va insns = (range_end va insns).toNat := by rw [scan_end, hscanned]
  have hfirst : va.toNat ≤ (range_end va insns).toNat := by
    rw [toNat_range_end hrun, Nat.mod_eq_of_lt hregular.fits]
    exact Nat.le_add_right _ _
  have hva : va.toNat ∈ heads := (hcut.mem _).mpr ⟨Or.inl rfl, hend ▸ hfirst⟩
  refine ⟨hcut.pairwise, fun b hb => ?_, fun insn hinsn => ?_, fun b hb insn hinsn hge hlt hleaves => ?_, fun b hb t ht _ hlt => ?_⟩
  · obtain ⟨hstart, hlt, -⟩ := hcut.block hb
    exact ⟨(hregular.head hrun hcut hstart).1, hlt, hend ▸ hcut.stop_le hb⟩
  · have hin := hplaced.inside insn hinsn
    obtain ⟨b, hb, hge, hlt⟩ := hcut.exists_block ⟨_, hva, hin.1⟩ (show insn.va.toNat < scan_end va insns by omega)
    have hstop := hregular.behind_le hrun hcut hend hb hinsn hlt
    refine ⟨b, ⟨hb, hge, by omega⟩, ?_⟩
    rintro c ⟨hc, hcovers⟩
    exact eq_of_meet hcut.pairwise hc hb ⟨hcovers.1, by have := hcovers.2; omega⟩ ⟨hge, hlt⟩
  · have hin := hplaced.inside insn hinsn
    have hstop := hregular.behind_le hrun hcut hend hb hinsn hlt
    have hmin : (behind insn).toNat ∈ heads → b.stop ≤ (behind insn).toNat := fun hhead =>
      (hcut.block hb).2.2.2 _ hhead (by omega)
    have hle := hcut.stop_le hb
    rcases hregular.ends insn hinsn hleaves with hlast | ⟨hbranch, hsmall⟩ | ⟨x, hx, hbranch, hxa⟩
    · rw [hend, ← hlast] at hle
      omega
    · have hhead := hmin ((hcut.mem _).mpr
        ⟨Or.inr ⟨insn, hscanned.symm ▸ hinsn, hbranch, Or.inr ⟨rfl, (lt_add_sixteen _).mpr hsmall⟩⟩, by omega⟩)
      omega
    · have hhead := hmin ((hcut.mem _).mpr
        ⟨Or.inr ⟨x, hscanned.symm ▸ hx, hbranch, Or.inl (by rw [hxa])⟩, by omega⟩)
      omega
  · exact hcut.successors hb ht (hend ▸ hlt)

theorem Partitioned.fits (hrun : Run va insns) (hne : insns ≠ []) (hextent : extent insns < 2 ^ 64)
    (h : Partitioned va insns blocks) : va.toNat + extent insns < 2 ^ 64 := by
  obtain ⟨insn, hinsn⟩ := List.exists_mem_of_ne_nil insns hne
  obtain ⟨b, ⟨hb, -⟩, -⟩ := h.covered insn hinsn
  obtain ⟨hge, hlt, hle⟩ := h.inside b hb
  have hva := va.toNat_lt
  rw [toNat_range_end hrun] at hle
  omega

theorem Partitioned.tail (hrun : Run va insns) (hfits : va.toNat + extent insns < 2 ^ 64) (hcut : CutAt va insns heads blocks)
    (h : Partitioned va insns blocks) (hinsn : insn ∈ insns) (hindirect : Indirect insn) : behind insn = range_end va insns := by
  have hplaced := placed_of_run hrun hfits
  by_contra hnot
  obtain ⟨y, hy, hya⟩ := hplaced.next hinsn hnot
  obtain ⟨b, ⟨hb, hcovers⟩, -⟩ := h.covered y hy
  have hin := hplaced.inside y hy
  have hstop := hcut.stop_le hb
  have hscan := range_end_scanned_le hrun hfits hinsn hindirect
  have hpast := hcovers.2
  rw [scan_end] at hstop
  rw [← hya] at hscan
  omega

/-- Instructions that blocks partition are regular. -/
theorem Partitioned.regular (hrun : Run va insns) (hne : insns ≠ []) (hextent : extent insns < 2 ^ 64)
    (hcut : CutAt va insns heads blocks) (h : Partitioned va insns blocks) : Regular va insns := by
  have hfits := h.fits hrun hne hextent
  have htail : ∀ insn ∈ insns, Indirect insn → behind insn = range_end va insns := fun insn hinsn hindirect =>
    h.tail hrun hfits hcut hinsn hindirect
  have hplaced := placed_of_run hrun hfits
  have hscanned := scanned_eq hrun hfits htail
  have hend : scan_end va insns = (range_end va insns).toNat := by rw [scan_end, hscanned]
  have hhead : ∀ insn ∈ insns, Branch insn → insn.rel_target.toNat ≤ (range_end va insns).toNat →
      insn.rel_target.toNat ∈ heads := fun insn hinsn hbranch hle =>
    (hcut.mem _).mpr ⟨Or.inr ⟨insn, hscanned.symm ▸ hinsn, hbranch, Or.inl rfl⟩, hend.symm ▸ hle⟩
  refine ⟨hfits, htail, fun insn hinsn hbranch => ?_, fun insn hinsn hleaves => ?_⟩
  · have hge : va.toNat ≤ insn.rel_target.toNat := by
      by_contra hbelow
      have hin := hplaced.inside insn hinsn
      obtain ⟨b, hb, hstart⟩ := hcut.exists_start (hhead insn hinsn hbranch (by omega)) (by omega)
      have hinside := (h.inside b hb).1
      omega
    refine ⟨UInt64.le_iff_toNat_le.mpr hge, fun hlt => ?_⟩
    rw [UInt64.lt_iff_toNat_lt] at hlt
    obtain ⟨x, hx, hle, hbehind⟩ := hplaced.located _ hge hlt
    obtain ⟨b, ⟨hb, hcovers⟩, -⟩ := h.covered x hx
    have hxin := hplaced.inside x hx
    have hmin := (hcut.block hb).2.2.2 _ (hhead insn hinsn hbranch hlt.le)
    obtain ⟨hstart, hstop⟩ := hcovers
    refine ⟨x, hx, UInt64.toNat_inj.mp ?_⟩
    omega
  · by_cases hlast : behind insn = range_end va insns
    · exact Or.inl hlast
    · have hin := hplaced.inside insn hinsn
      obtain ⟨b, ⟨hb, hcovers⟩, -⟩ := h.covered insn hinsn
      obtain ⟨hstart, hstop⟩ := hcovers
      have hends := h.leaves b hb insn hinsn hstart (by omega) hleaves
      have hbehind : (behind insn).toNat = b.stop := by omega
      have hnot : (behind insn).toNat ≠ (range_end va insns).toNat := fun heq => hlast (UInt64.toNat_inj.mp heq)
      have hmem : b.stop ∈ heads := (hcut.block hb).2.2.1.resolve_right (by omega)
      rw [← hbehind] at hmem
      obtain ⟨hva | ⟨x, hx, hbranch, htarget | ⟨hfall, hsmall⟩⟩, -⟩ := (hcut.mem _).mp hmem
      · omega
      · rw [hscanned] at hx
        exact Or.inr (Or.inr ⟨x, hx, hbranch, (UInt64.toNat_inj.mp htarget).symm⟩)
      · rw [hscanned] at hx
        have hxin := hplaced.inside x hx
        have hsame := hplaced.eq_of_meet hinsn hx (by omega) (by omega)
        subst hsame
        exact Or.inr (Or.inl ⟨hbranch, (lt_add_sixteen _).mp hsmall⟩)

end

/-- The blocks of a function that can be decoded, if they are not too many, partition its instructions exactly if these
are regular. -/
theorem blocks_partition_iff {img : image_ref_t} {fn_va : UInt64} {max_blocks : Nat}
    (hok : (build_cfg img fn_va max_blocks).ok = true) (hall : (build_cfg img fn_va max_blocks).truncated = false) :
    Partitioned fn_va (fn_insns img fn_va) (build_cfg img fn_va max_blocks).blocks ↔ Regular fn_va (fn_insns img fn_va) := by
  obtain ⟨hne, heads, hcut⟩ := cut_build_cfg hok hall
  have hrun : Run fn_va (fn_insns img fn_va) := run_decode_range _ _ _
  have hextent : extent (fn_insns img fn_va) < 2 ^ 64 := by
    have hle := extent_le (fn_insns img fn_va)
    have hlength : (fn_insns img fn_va).length ≤ 8192 := length_decode_range _ _ _
    omega
  exact ⟨fun h => h.regular hrun hne hextent hcut, fun hregular => hregular.partitioned hrun hcut⟩

/-- A decoder of three instructions. -/
def small_decode (va : UInt64) : List UInt8 → Option insn_t
  | 0x90 :: _ => some { va, length := 1, mnemonic := .NOP }
  | 0xC3 :: _ => some { va, length := 1, flow := .ret, mnemonic := .RET }
  | 0x74 :: d :: _ => some { va, length := 2, flow := .jcc, has_rel_target := true, rel_target := va + 2 + d.toUInt64 }
  | _ => none

theorem small_decode_placed (va : UInt64) (buf : List UInt8) (insn : insn_t) (h : small_decode va buf = some insn) :
    insn.va = va := by
  rw [small_decode.eq_def] at h
  split at h <;> cases h <;> rfl

/-- An image of a file that is mapped as it is. -/
def small_image (file : List UInt8) : image_ref_t where
  pe := {}
  file
  base := 0x140000000
  eng := ⟨small_decode⟩
  placed := small_decode_placed

/-- A jump over a `nop` to the `ret` at the end. -/
def jump_over_nop : image_ref_t := small_image ([0x74, 0x01, 0x90, 0xC3] ++ List.replicate 16 0)

theorem partitioned_jump_over_nop :
    Partitioned 0x140000000 (fn_insns jump_over_nop 0x140000000) (build_cfg jump_over_nop 0x140000000 200).blocks := by
  refine (blocks_partition_iff (by decide) (by decide)).mpr ⟨?_, ?_, ?_, ?_⟩
  · decide
  · decide
  · decide
  · decide

/-- A `ret` with two `nop` behind it. -/
def ret_and_nops : image_ref_t := small_image ([0xC3, 0x90, 0x90] ++ List.replicate 15 0)

/-- The `ret` is in the middle of the only block. -/
theorem ret_inside_block :
    (build_cfg ret_and_nops 0x140000000 200).ok = true ∧ (build_cfg ret_and_nops 0x140000000 200).truncated = false ∧
      ¬ Partitioned 0x140000000 (fn_insns ret_and_nops 0x140000000) (build_cfg ret_and_nops 0x140000000 200).blocks := by
  refine ⟨by decide, by decide, fun h => ?_⟩
  have hblocks : (build_cfg ret_and_nops 0x140000000 200).blocks = [{ start := 0x140000000, stop := 0x140000003, instructions := 3 }] := by
    decide
  have hret : ∃ insn ∈ fn_insns ret_and_nops 0x140000000, Leaves insn ∧ insn.va = 0x140000000 ∧ insn.length = 1 := by
    decide
  obtain ⟨insn, hinsn, hleaves, hva, hlength⟩ := hret
  have hends := h.leaves _ (hblocks ▸ List.mem_singleton_self _) insn hinsn (by rw [hva]; decide) (by rw [hva]; decide) hleaves
  rw [hva, hlength] at hends
  exact absurd hends (by decide)

end slop.core.analysis.xray
