import ReverseSlop.Core.Analysis.Imgpatch.Code
import ReverseSlop.Core.Analysis.Imgpatch.DryRun
import ReverseSlop.Library.X86

namespace slop.core.analysis.imgpatch

open disasm disasm.binary_state

/-- The self-zeroing instructions of a function with the conditional jumps behind them. -/
def opaque_sites (insns : List insn_t) : List (insn_t × insn_t) :=
  (insns.zip insns.tail).filter fun p => opaque_site p.1 p.2

/-- The flags behind a self-zeroing instruction of a register with some value. -/
def flags_after (prev : insn_t) {w : Nat} (value : BitVec w) : X86.Flags :=
  if prev.mnemonic = .XOR then X86.xor_flags else X86.test_flags value

/-- The first operand's register. -/
def operand_reg (prev : insn_t) : ZydisRegister := (prev.ops.head?.map operand_t.reg).getD ZYDIS_REGISTER_NONE

/-- What is known of the registers: their widths, the width of the counter, and which of the
counter's bits a register is: from which one on, and how many of them are zero behind a
`xor` of the register with itself (a write of `ecx` clears the upper half of `rcx`, too). -/
structure registers_t where
  width : ZydisRegister → Nat
  count : Nat
  in_count : ZydisRegister → Option (Nat × Nat)
  wide : 8 ≤ count
  fits : ∀ r o k, in_count r = some (o, k) → 8 ≤ width r ∧ width r ≤ k ∧ o + k ≤ count

/-- What the decoder and `ZydisRegisterGetWidth` do that the patch relies on: the
instruction has the address and the first byte it was decoded from, and a register
of a `test` has at least eight bits. -/
structure Decodes (eng : engine_t) (regs : registers_t) : Prop where
  va : ∀ va buf insn, eng.decode va buf = some insn → insn.va = va
  bytes : ∀ va buf insn, eng.decode va buf = some insn → insn.bytes = buf.take insn.length.toNat
  width : ∀ va buf insn, eng.decode va buf = some insn → self_zeroing insn = true → 8 ≤ regs.width (operand_reg insn)

/-- Where the branch that an image has at an instruction goes. -/
def successor_at {n : Nat} (bin : binary_t) (insn : insn_t) (s : X86.Machine n) : Option UInt64 :=
  (code bin insn).bind (X86.successor s insn.va)

/-- The condition and the displacement of the conditional branch at an instruction. -/
def branch_at (bin : binary_t) (insn : insn_t) : Option (X86.Cond × UInt64) := (code bin insn).bind X86.branch

section

variable (regs : registers_t)

/-- A state behind the self-zeroing instruction: the flags are those of some value of its
register, and where the register is a part of the counter the counter agrees. -/
def Behind (prev : insn_t) (s : X86.Machine regs.count) : Prop :=
  ∃ value : BitVec (regs.width (operand_reg prev)), s.flags = flags_after prev value ∧
    ∀ o k, regs.in_count (operand_reg prev) = some (o, k) →
      if prev.mnemonic = .XOR then s.count.extractLsb' o k = 0 else s.count.extractLsb' o (regs.width (operand_reg prev)) = value

/-- From every state the branch goes where it went before, and a branch whose outcome is not
the same in all of them is left alone. Code that is no branch of these is left alone, too. -/
def PreservesBranch (bin bin' : binary_t) (prev insn : insn_t) : Prop :=
  match branch_at bin insn with
  | none => code bin' insn = code bin insn
  | some (cond, _) =>
    (∀ s, Behind regs prev s → successor_at bin' insn s = successor_at bin insn s) ∧
      ((∃ s s', Behind regs prev s ∧ Behind regs prev s' ∧ cond.taken s ≠ cond.taken s') → code bin' insn = code bin insn)

def PreservesBranches (bin : binary_t) (fn_va : UInt64) : Prop :=
  ∀ p ∈ opaque_sites (decode_fn bin fn_va 8192),
    PreservesBranch regs bin (resolve_opaque_predicates bin fn_va false).2 p.1 p.2

/-- The self-zeroing instruction settles the branch: a condition code behind `xor` or one that
a `test` settles, and behind `xor` the branches on the counter as far as its zeros reach. -/
def Settled (prev : insn_t) : X86.Cond → Prop
  | .cc cc => prev.mnemonic = .XOR ∨ cc.settled = true
  | .loopne => prev.mnemonic = .XOR
  | .loope | .loop => prev.mnemonic = .XOR ∧ ∃ k, regs.in_count (operand_reg prev) = some (0, k)
  | .jcxz => prev.mnemonic = .XOR ∧ regs.in_count (operand_reg prev) = some (0, regs.count)

end

/-- The outcome of a branch that is settled. -/
def outcome (prev : insn_t) : X86.Cond → Bool
  | .cc cc => cc.holds (flags_after prev (0 : BitVec 8))
  | .loopne => false
  | .loope | .loop | .jcxz => true

/-- What `force_jmp` pokes. -/
def forced_bytes (insn : insn_t) : List (Nat × UInt8) :=
  if insn.length ≤ 2 then [(0, 0xEB)]
  else if insn.length ≥ 5 && insn.bytes.getD 0 0 = 0x0F then [(0, 0x90), (1, 0xE9)]
  else []

/-- The self-zeroing instruction settles the branch, and it is taken or goes to the
next instruction anyway. Other code keeps its bytes. -/
def Harmless (regs : registers_t) (bin : binary_t) (prev insn : insn_t) : Prop :=
  match branch_at bin insn with
  | none => ∀ bytes, code bin insn = some bytes → set_all bytes (forced_bytes insn) = bytes
  | some (cond, disp) => Settled regs prev cond ∧ (outcome prev cond = true ∨ disp = 0)

/-! The patch as a fold over the sites. -/

private theorem force_jumps_foldl (bin : binary_t) (prev : insn_t) (insns : List insn_t) :
    (force_jumps false bin prev insns).2 = ((opaque_sites (prev :: insns)).map Prod.snd).foldl force_jmp bin := by
  induction insns generalizing bin prev with
  | nil => rfl
  | cons insn rest ih =>
    have hsites : opaque_sites (prev :: insn :: rest) =
        if opaque_site prev insn then (prev, insn) :: opaque_sites (insn :: rest) else opaque_sites (insn :: rest) := by
      rw [opaque_sites, List.tail_cons, List.zip_cons_cons, List.filter_cons]
      rfl
    rw [force_jumps, hsites]
    split
    · rename_i hsite
      have hopaque : opaque_site prev insn = true := hsite
      rw [if_pos hopaque, List.map_cons, List.foldl_cons]
      exact ih (force_jmp bin insn) insn
    · rename_i hsite
      have hopaque : ¬ opaque_site prev insn = true := hsite
      rw [if_neg hopaque]
      exact ih bin insn

theorem force_jmp_eq (bin : binary_t) (insn : insn_t) : force_jmp bin insn = poke_all bin insn.va (forced_bytes insn) := by
  have hva : insn.va + UInt64.ofNat 0 = insn.va := UInt64.add_zero insn.va
  rw [force_jmp, forced_bytes]
  split
  · rw [poke_all, List.foldl_cons, List.foldl_nil, hva]
  split
  · rw [poke_all, List.foldl_cons, List.foldl_cons, List.foldl_nil, hva]
    rfl
  · rfl

private theorem forced_bytes_lt {insn : insn_t} (hlength : 0 < insn.length.toNat) :
    ∀ p ∈ forced_bytes insn, p.1 < insn.length.toNat := by
  rw [forced_bytes]
  split
  · simpa using hlength
  split
  · rename_i hnear
    have hfive : 5 ≤ insn.length.toNat := UInt8.le_iff_toNat_le.mp (of_decide_eq_true (Bool.and_eq_true_iff.mp hnear).1)
    have hlong : 1 < insn.length.toNat := by omega
    simpa using ⟨hlength, hlong⟩
  · exact List.forall_mem_nil _

/-! What a forced jump does. -/

private theorem of_opcode_ne {op : UInt8} {cond : X86.Cond} (hcond : X86.Cond.of_opcode op = some cond) : op ≠ 0xEB := by
  rintro rfl
  cases hcond

/-- A jump that is forced goes to the target of the conditional branch. -/
theorem forced_successor {insn : insn_t} {bytes : List UInt8} {cond : X86.Cond} {disp : UInt64}
    (hbranch : X86.branch bytes = some (cond, disp)) (hlength : bytes.length = insn.length.toNat)
    (hfirst : insn.bytes.getD 0 0 = bytes.getD 0 0) {n : Nat} (s : X86.Machine n) (ip : UInt64) :
    X86.successor s ip (set_all bytes (forced_bytes insn)) = some (ip + UInt64.ofNat bytes.length + disp) ∧
      set_all bytes (forced_bytes insn) ≠ bytes := by
  rw [X86.branch.eq_def] at hbranch
  split at hbranch
  · rename_i op rel
    obtain ⟨cond', hop, heq⟩ := Option.map_eq_some_iff.mp hbranch
    cases heq
    have hshort : insn.length ≤ 2 := UInt8.le_iff_toNat_le.mpr (Nat.le_of_eq hlength.symm)
    have hforced : forced_bytes insn = [(0, 0xEB)] := if_pos hshort
    rw [hforced]
    exact ⟨X86.successor_short s ip rel, fun hsame => of_opcode_ne hop (List.cons.inj hsame).1.symm⟩
  · rename_i esc op a b c d
    split at hbranch
    · rename_i hop
      cases hbranch
      have hsix : insn.length.toNat = 6 := hlength.symm
      have hshort : ¬ insn.length ≤ 2 := by
        rw [UInt8.le_iff_toNat_le, hsix]
        decide
      have hnear : (insn.length ≥ 5 && insn.bytes.getD 0 0 = 0x0F) = true := by
        rw [Bool.and_eq_true_iff, decide_eq_true_eq, ge_iff_le, UInt8.le_iff_toNat_le, hsix, hfirst]
        exact ⟨by decide, decide_eq_true hop.1⟩
      have hforced : forced_bytes insn = [(0, 0x90), (1, 0xE9)] := (if_neg hshort).trans (if_pos hnear)
      rw [hforced]
      refine ⟨X86.successor_near s ip a b c d, fun hsame => ?_⟩
      rw [← (List.cons.inj hsame).1] at hop
      exact absurd hop.1 (by decide)
    · cases hbranch
  · cases hbranch

/-! The patched sites. -/

private theorem opaque_sites_mem {insns : List insn_t} {p : insn_t × insn_t} (hp : p ∈ opaque_sites insns) :
    p.1 ∈ insns ∧ p.2 ∈ insns ∧ opaque_site p.1 p.2 = true := by
  obtain ⟨hzip, hsite⟩ := List.mem_filter.mp hp
  exact ⟨(List.of_mem_zip hzip).1, List.mem_of_mem_tail (List.of_mem_zip hzip).2, hsite⟩

/-- The conditional jumps of the sites. -/
def opaque_jumps (bin : binary_t) (fn_va : UInt64) : List insn_t :=
  (opaque_sites (decode_fn bin fn_va 8192)).map Prod.snd

private theorem opaque_jumps_length {bin : binary_t} {fn_va : UInt64} {insn : insn_t} (hinsn : insn ∈ opaque_jumps bin fn_va) :
    0 < insn.length.toNat := by
  obtain ⟨p, hp, rfl⟩ := List.mem_map.mp hinsn
  obtain ⟨-, -, -, -, hlength⟩ := decode_fn_mem (opaque_sites_mem hp).2.1
  exact hlength

private theorem resolve_code {bin : binary_t} {fn_va : UInt64} (hapart : Apart bin (opaque_jumps bin fn_va)) {insn : insn_t}
    (hinsn : insn ∈ opaque_jumps bin fn_va) :
    code (resolve_opaque_predicates bin fn_va false).2 insn = (code bin insn).map fun bytes => set_all bytes (forced_bytes insn) := by
  have hlocal : ∀ x ∈ opaque_jumps bin fn_va, ∀ bin, PokesIn x bin (force_jmp bin x) := by
    intro x hx bin
    rw [force_jmp_eq]
    exact poke_all_pokesIn (forced_bytes_lt (opaque_jumps_length hx)) bin
  have hfold : code (resolve_opaque_predicates bin fn_va false).2 insn =
      code ((opaque_jumps bin fn_va).foldl force_jmp bin) insn := by
    rw [resolve_opaque_predicates, opaque_jumps]
    cases decode_fn bin fn_va 8192 with
    | nil => rfl
    | cons first rest =>
      rw [← force_jumps_foldl]
      apply finish_code
  have hlength := opaque_jumps_length hinsn
  obtain ⟨before, after, hsplit⟩ := List.append_of_mem hinsn
  rw [hsplit] at hlocal hapart
  have hnodup := (List.nodup_flatMap.mp hapart).1 insn (List.mem_append_right before List.mem_cons_self)
  obtain ⟨hheader, hbefore, hcode⟩ := foldl_code hlocal hapart
  rw [hfold, hsplit, hcode, force_jmp_eq, poke_all_code (forced_bytes_lt hlength), hbefore]
  rw [hheader.offsets]
  exact hnodup

/-- The decoder saw the byte that is at the address. -/
theorem Decodes.first {bin : binary_t} {regs : registers_t} (hdecodes : Decodes bin.eng regs) {fn_va : UInt64} {max : Nat} {insn : insn_t}
    (hinsn : insn ∈ decode_fn bin fn_va max) {bytes : List UInt8} (hcode : code bin insn = some bytes) :
    insn.bytes.getD 0 0 = bytes.getD 0 0 := by
  obtain ⟨va, buf, hread, hdecode, hlength⟩ := decode_fn_mem hinsn
  have hva := hdecodes.va va buf insn hdecode
  have hbuf : byte_at bin va = some (buf.getD 0 0) := read_bin_first (Nat.succ_pos 15) hread
  have hbytes := fetch_first hlength hcode
  rw [hva, hbuf, Option.some.injEq] at hbytes
  rw [hdecodes.bytes va buf insn hdecode, ← hbytes]
  rw [List.getD_eq_getElem?_getD, List.getElem?_take_of_lt hlength, List.getD_eq_getElem?_getD]

private theorem flags_after_settled {prev : insn_t} {cc : X86.Cc} (hsettled : prev.mnemonic = .XOR ∨ cc.settled = true)
    {w : Nat} (value : BitVec w) : cc.holds (flags_after prev value) = cc.holds (flags_after prev (0 : BitVec 8)) := by
  rw [flags_after, flags_after]
  split
  · rfl
  · rename_i hxor
    have hcc := hsettled.resolve_left hxor
    cases cc <;> first | rfl | cases hcc

/-! The states behind a self-zeroing instruction. -/

section

variable {regs : registers_t} {prev : insn_t} {s : X86.Machine regs.count} {cond : X86.Cond}

private theorem behind_zero : Behind regs prev ⟨flags_after prev (0 : BitVec (regs.width (operand_reg prev))), 0⟩ := by
  refine ⟨0, rfl, fun o k _ => ?_⟩
  split <;> exact BitVec.extractLsb'_zero

/-- Behind `xor` a bit of the counter outside the register is free. -/
theorem behind_bit (hxor : prev.mnemonic = .XOR) {i : Nat}
    (hout : ∀ o k, regs.in_count (operand_reg prev) = some (o, k) → i < o ∨ o + k ≤ i) :
    Behind regs prev ⟨X86.xor_flags, BitVec.twoPow regs.count i⟩ := by
  refine ⟨0, (if_pos hxor).symm, fun o k hpart => ?_⟩
  rw [if_pos hxor]
  refine BitVec.eq_of_getLsbD_eq fun j hj => ?_
  have hne : i ≠ o + j := by
    have := hout o k hpart
    omega
  simp [BitVec.getLsbD_extractLsb', BitVec.getLsbD_twoPow, hne]

/-- Behind `test` the counter can have any value. -/
theorem behind_count (htest : prev.mnemonic ≠ .XOR) (count : BitVec regs.count) :
    ∃ value : BitVec (regs.width (operand_reg prev)), Behind regs prev ⟨X86.test_flags value, count⟩ := by
  cases hpart : regs.in_count (operand_reg prev) with
  | none => exact ⟨0, 0, (if_neg htest).symm, fun o k h => nomatch hpart.symm.trans h⟩
  | some part =>
    refine ⟨count.extractLsb' part.1 _, _, (if_neg htest).symm, fun o k h => ?_⟩
    obtain rfl := Option.some.inj (hpart.symm.trans h)
    rw [if_neg htest]

/-- Behind `test` the register can have any value, and an even one with an even counter. -/
theorem behind_value (htest : prev.mnemonic ≠ .XOR) (value : BitVec (regs.width (operand_reg prev))) :
    ∃ count : BitVec regs.count, Behind regs prev ⟨X86.test_flags value, count⟩ ∧
      (value.getLsbD 0 = false → count.getLsbD 0 = false) := by
  cases hpart : regs.in_count (operand_reg prev) with
  | none => exact ⟨0, ⟨value, (if_neg htest).symm, fun o k h => nomatch hpart.symm.trans h⟩, fun _ => BitVec.getLsbD_zero⟩
  | some part =>
    obtain ⟨o, k⟩ := part
    obtain ⟨-, hle, hfits⟩ := regs.fits _ _ _ hpart
    refine ⟨value.setWidth regs.count <<< o, ⟨value, (if_neg htest).symm, fun o' k' h => ?_⟩, fun heven => ?_⟩
    · obtain ⟨rfl, rfl⟩ := Prod.mk.inj (Option.some.inj (hpart.symm.trans h))
      rw [if_neg htest]
      refine BitVec.eq_of_getLsbD_eq fun j hj => ?_
      have hin : o + j < regs.count := by omega
      have hlow : j < regs.count := by omega
      simp [hin, hj]
    · simp [BitVec.getLsbD_shiftLeft, BitVec.getLsbD_setWidth, heven]

private theorem sub_one_ne_zero {n : Nat} {count : BitVec n} (hn : 0 < n) (heven : count.getLsbD 0 = false) : count - 1 ≠ 0 := by
  intro hzero
  rw [BitVec.sub_eq_iff_eq_add.mp hzero] at heven
  simp [hn] at heven

private theorem Settled.taken (hsettled : Settled regs prev cond) (hs : Behind regs prev s) : cond.taken s = outcome prev cond := by
  obtain ⟨value, hflags, hcount⟩ := hs
  have hlow {k : Nat} (hxor : prev.mnemonic = .XOR) (hpart : regs.in_count (operand_reg prev) = some (0, k)) :
      s.count.getLsbD 0 = false := by
    have hzeros := hcount 0 k hpart
    rw [if_pos hxor] at hzeros
    obtain ⟨hwide, hle, -⟩ := regs.fits _ _ _ hpart
    have hbit : (s.count.extractLsb' 0 k).getLsbD 0 = false := by rw [hzeros]; exact BitVec.getLsbD_zero
    simpa [BitVec.getLsbD_extractLsb', show 0 < k by omega] using hbit
  have hzf (hxor : prev.mnemonic = .XOR) : s.flags.zf = true := by
    rw [hflags, flags_after, if_pos hxor]
    rfl
  have hpos : 0 < regs.count := Nat.lt_of_lt_of_le (by decide) regs.wide
  cases cond with
  | cc cc =>
    rw [X86.Cond.taken, hflags]
    exact flags_after_settled hsettled value
  | loopne =>
    rw [X86.Cond.taken, hzf hsettled]
    exact Bool.and_false _
  | loope =>
    obtain ⟨hxor, k, hpart⟩ := hsettled
    rw [X86.Cond.taken, hzf hxor, decide_eq_true (sub_one_ne_zero hpos (hlow hxor hpart))]
    rfl
  | loop =>
    obtain ⟨hxor, k, hpart⟩ := hsettled
    exact decide_eq_true (sub_one_ne_zero hpos (hlow hxor hpart))
  | jcxz =>
    obtain ⟨hxor, hpart⟩ := hsettled
    have hzeros := hcount 0 regs.count hpart
    rw [if_pos hxor, BitVec.extractLsb'_eq_self] at hzeros
    exact decide_eq_true hzeros

/-- A register that is not the whole counter leaves a bit of it free behind `xor`. -/
theorem exists_free_bit (hxor : prev.mnemonic = .XOR)
    (hpart : ¬ regs.in_count (operand_reg prev) = some (0, regs.count)) :
    ∃ i < regs.count, Behind regs prev ⟨X86.xor_flags, BitVec.twoPow regs.count i⟩ := by
  have hpos : 0 < regs.count := Nat.lt_of_lt_of_le (by decide) regs.wide
  by_cases hzero : ∃ k, regs.in_count (operand_reg prev) = some (0, k)
  · obtain ⟨k, hk⟩ := hzero
    obtain ⟨-, -, hfits⟩ := regs.fits _ _ _ hk
    have hne : k ≠ regs.count := fun h => hpart (h ▸ hk)
    refine ⟨k, by omega, behind_bit hxor fun o k' h => ?_⟩
    obtain ⟨rfl, rfl⟩ := Prod.mk.inj (Option.some.inj (hk.symm.trans h))
    exact Or.inr (Nat.le_of_eq (Nat.zero_add k))
  · refine ⟨0, hpos, behind_bit hxor fun o k h => Or.inl (Nat.pos_of_ne_zero ?_)⟩
    rintro rfl
    exact hzero ⟨k, h⟩

/-- A branch whose outcome is the same in all states behind the instruction is settled by it. -/
theorem settled_iff (hw : 8 ≤ regs.width (operand_reg prev)) :
    (∀ s s', Behind regs prev s → Behind regs prev s' → cond.taken s = cond.taken s') ↔ Settled regs prev cond := by
  refine ⟨fun hsame => ?_, fun hsettled s s' hs hs' => by rw [hsettled.taken hs, hsettled.taken hs']⟩
  have hpos : 0 < regs.count := Nat.lt_of_lt_of_le (by decide) regs.wide
  have hcountdown : (0 : BitVec regs.count) - 1 ≠ 0 := sub_one_ne_zero hpos BitVec.getLsbD_zero
  have hzero : Behind regs prev _ := behind_zero
  by_cases hxor : prev.mnemonic = .XOR
  · -- the counter can be zero, and one bit of it that is not in the register can be set
    have hflags : flags_after prev (0 : BitVec (regs.width (operand_reg prev))) = X86.xor_flags := if_pos hxor
    rw [hflags] at hzero
    have hone (hout : ¬ ∃ k, regs.in_count (operand_reg prev) = some (0, k)) :
        Behind regs prev ⟨X86.xor_flags, 1⟩ := by
      rw [show (1 : BitVec regs.count) = BitVec.twoPow regs.count 0 from BitVec.twoPow_zero.symm]
      refine behind_bit hxor fun o k hpart => Or.inl (Nat.pos_of_ne_zero fun h => hout ⟨k, ?_⟩)
      rw [hpart, h]
    cases cond with
    | cc cc => exact Or.inl hxor
    | loopne => exact hxor
    | loope =>
      refine ⟨hxor, by_contra fun hout => ?_⟩
      have hboth := hsame _ _ hzero (hone hout)
      simp [X86.Cond.taken, X86.xor_flags, Nat.ne_of_gt hpos] at hboth
    | loop =>
      refine ⟨hxor, by_contra fun hout => ?_⟩
      have hboth := hsame _ _ hzero (hone hout)
      simp [X86.Cond.taken, Nat.ne_of_gt hpos] at hboth
    | jcxz =>
      refine ⟨hxor, by_contra fun hout => ?_⟩
      obtain ⟨i, hi, hbit⟩ := exists_free_bit hxor hout
      have hset : BitVec.twoPow regs.count i ≠ 0 := by
        intro h
        have hlsb := BitVec.getLsbD_twoPow (w := regs.count) i i
        rw [h] at hlsb
        simp [hi] at hlsb
      have hboth := hsame _ _ hzero hbit
      exact hset (by simpa [X86.Cond.taken] using hboth)
  · -- the register can have any value, and the counter, too
    have hflags : flags_after prev (0 : BitVec (regs.width (operand_reg prev))) = X86.test_flags 0 := if_neg hxor
    rw [hflags] at hzero
    obtain ⟨value, hone⟩ := behind_count hxor (1 : BitVec regs.count)
    have heven : (2 : BitVec (regs.width (operand_reg prev))).getLsbD 0 = false := by simp [BitVec.getLsbD_ofNat]
    have htwo : (2 : BitVec (regs.width (operand_reg prev))) ≠ 0 := by
      have hbit : (2 : BitVec (regs.width (operand_reg prev))).getLsbD 1 = true := by
        rw [BitVec.ofNat_eq_ofNat, BitVec.getLsbD_ofNat, decide_eq_true (show 1 < regs.width (operand_reg prev) by omega)]
        rfl
      intro h
      rw [h] at hbit
      cases BitVec.getLsbD_zero.symm.trans hbit
    obtain ⟨count, hvalue, hcount⟩ := behind_value hxor (2 : BitVec (regs.width (operand_reg prev)))
    have hmore := sub_one_ne_zero hpos (hcount heven)
    cases cond with
    | cc cc =>
      refine Or.inr ((X86.Cc.settled_iff cc hw).mp fun value value' => ?_)
      obtain ⟨count, hs, -⟩ := behind_value hxor value
      obtain ⟨count', hs', -⟩ := behind_value hxor value'
      exact hsame _ _ hs hs'
    | loopne =>
      have hboth := hsame _ _ hzero hvalue
      have hvalue_zero : count - 1 ≠ 0 → (2 : BitVec (regs.width (operand_reg prev))) = 0 := by
        simpa [X86.Cond.taken, X86.test_flags] using hboth
      exact absurd (hvalue_zero hmore) htwo
    | loope =>
      have hboth := hsame _ _ hzero hvalue
      have hvalue_zero : ¬ count - 1 = 0 ∧ (2 : BitVec (regs.width (operand_reg prev))) = 0 := by
        simpa [X86.Cond.taken, X86.test_flags, Nat.ne_of_gt hpos] using hboth
      exact absurd hvalue_zero.2 htwo
    | loop =>
      have hboth := hsame _ _ hzero hone
      simp [X86.Cond.taken, Nat.ne_of_gt hpos] at hboth
    | jcxz =>
      have hboth := hsame _ _ hzero hone
      simp [X86.Cond.taken, Nat.ne_of_gt hpos] at hboth

end

/-- A forced jump preserves what the conditional branch did exactly when it is harmless. -/
theorem preservesBranch_iff {bin bin' : binary_t} {regs : registers_t} {prev insn : insn_t}
    (hw : 8 ≤ regs.width (operand_reg prev)) (hcode : code bin' insn = (code bin insn).map fun bytes => set_all bytes (forced_bytes insn))
    (hfirst : ∀ bytes, code bin insn = some bytes → insn.bytes.getD 0 0 = bytes.getD 0 0) :
    PreservesBranch regs bin bin' prev insn ↔ Harmless regs bin prev insn := by
  rw [PreservesBranch, Harmless]
  cases hbranch : branch_at bin insn with
  | none =>
    rw [hcode]
    cases hbytes : code bin insn with
    | none => simp
    | some bytes => simp
  | some branch =>
    obtain ⟨cond, disp⟩ := branch
    obtain ⟨bytes, hbytes, hbranch⟩ := Option.bind_eq_some_iff.mp hbranch
    rw [hbytes, Option.map_some] at hcode
    have hlength : bytes.length = insn.length.toNat := length_fetch hbytes
    have hforced {n : Nat} (s : X86.Machine n) := forced_successor hbranch hlength (hfirst bytes hbytes) s insn.va
    have hgoes : ∀ s : X86.Machine regs.count,
        successor_at bin' insn s = successor_at bin insn s ↔ cond.taken s = true ∨ disp = 0 := by
      intro s
      rw [successor_at, successor_at, hcode, hbytes, Option.bind_some, Option.bind_some, X86.successor_branch _ _ hbranch,
        (hforced s).1, Option.some.injEq]
      cases cond.taken s with
      | true => exact iff_of_true rfl (Or.inl rfl)
      | false => simp
    have hpatched : ¬ code bin' insn = code bin insn := by
      rw [hcode, hbytes, Option.some.injEq]
      exact (hforced (⟨X86.xor_flags, 0⟩ : X86.Machine 0)).2
    have hkept : ((∃ s s', Behind regs prev s ∧ Behind regs prev s' ∧ cond.taken s ≠ cond.taken s') →
        code bin' insn = code bin insn) ↔ Settled regs prev cond := by
      rw [← settled_iff hw]
      constructor
      · intro h s s' hs hs'
        by_contra hdiffer
        exact hpatched (h ⟨s, s', hs, hs', hdiffer⟩)
      · rintro hsame ⟨s, s', hs, hs', hdiffer⟩
        exact absurd (hsame s s' hs hs') hdiffer
    show _ ∧ _ ↔ _
    rw [hkept, and_comm]
    refine and_congr_right fun hsettled => ?_
    simp only [hgoes]
    constructor
    · intro h
      rw [← hsettled.taken behind_zero]
      exact h _ behind_zero
    · intro h s hs
      rwa [hsettled.taken hs]

/-- Where the patched jumps lie apart in the file, the patch preserves them exactly
when each is taken in every state that the instruction before it leaves. -/
theorem resolve_preserves_iff (regs : registers_t) (bin : binary_t) (fn_va : UInt64)
    (hdecodes : Decodes bin.eng regs) (hapart : Apart bin (opaque_jumps bin fn_va)) :
    PreservesBranches regs bin fn_va ↔
      ∀ p ∈ opaque_sites (decode_fn bin fn_va 8192), Harmless regs bin p.1 p.2 := by
  refine forall₂_congr fun p hp => ?_
  obtain ⟨hprev, hinsn, hsite⟩ := opaque_sites_mem hp
  obtain ⟨va, buf, -, hdecode, -⟩ := decode_fn_mem hprev
  have hzeroing : self_zeroing p.1 = true := (Bool.and_eq_true_iff.mp hsite).2
  refine preservesBranch_iff (hdecodes.width va buf p.1 hdecode hzeroing) ?_ fun bytes => hdecodes.first hinsn
  exact resolve_code hapart (List.mem_map_of_mem hp)

/-- Decodes `xor` and `test` of `eax` or `ecx` with itself and the short conditional branches. -/
def branch_decode (va : UInt64) (buf : List UInt8) : Option insn_t :=
  match buf.take 2 with
  | [op, arg] =>
    let reg : operand_t := { cls := .reg, reg := if arg = 0xC0 then 37 else 38 }
    if op = 0x31 ∧ (arg = 0xC0 ∨ arg = 0xC9) then
      some { va, length := 2, bytes := buf.take 2, mnemonic := .XOR, ops := [reg, reg] }
    else if op = 0x85 ∧ (arg = 0xC0 ∨ arg = 0xC9) then
      some { va, length := 2, bytes := buf.take 2, mnemonic := .TEST, ops := [reg, reg] }
    else if (X86.Cond.of_opcode op).isSome then some { va, length := 2, bytes := buf.take 2, flow := .jcc }
    else none
  | _ => none

/-- `xor` of a register with itself and a conditional branch behind it. -/
def branch_image (arg op : UInt8) : binary_t :=
  { sample_image with file := [0x31, arg, op, 0x05] ++ List.replicate 16 0, eng := ⟨branch_decode⟩ }

/-- The registers of 32 bits in 64-bit code; `ecx` is the lower half of the counter. -/
def wide_regs : registers_t where
  width _ := 32
  count := 64
  in_count r := if r = 38 then some (0, 64) else none
  wide := by decide
  fits r o k h := by
    split at h
    · cases h
      decide
    · cases h

private theorem branch_decodes : Decodes ⟨branch_decode⟩ wide_regs := by
  have hcases : ∀ va buf insn, branch_decode va buf = some insn →
      insn.va = va ∧ insn.bytes = buf.take insn.length.toNat := by
    intro va buf insn hdecode
    simp only [branch_decode] at hdecode
    split at hdecode
    · split at hdecode
      · cases hdecode
        exact ⟨rfl, rfl⟩
      split at hdecode
      · cases hdecode
        exact ⟨rfl, rfl⟩
      split at hdecode
      · cases hdecode
        exact ⟨rfl, rfl⟩
      · cases hdecode
    · cases hdecode
  constructor
  · exact fun va buf insn hdecode => (hcases va buf insn hdecode).1
  · exact fun va buf insn hdecode => (hcases va buf insn hdecode).2
  · exact fun _ _ _ _ _ => show 8 ≤ 32 by decide

/-- After `xor ecx, ecx` a jump on a counter of zero is always taken. -/
theorem forced_jrcxz_preserved : PreservesBranches wide_regs (branch_image 0xC9 0xE3) 0x400000 := by
  apply (resolve_preserves_iff wide_regs (branch_image 0xC9 0xE3) 0x400000 branch_decodes ?_).mpr
  · have hsites : (opaque_sites (decode_fn (branch_image 0xC9 0xE3) 0x400000 8192)).all (fun p =>
        p.1.mnemonic = .XOR && operand_reg p.1 = 38 && p.2.va = 0x400002 && p.2.length = 2) = true := by decide
    intro p hp
    obtain ⟨⟨⟨hxor, hreg⟩, hva⟩, hlength⟩ := by simpa using List.all_eq_true.mp hsites p hp
    have hbranch : branch_at (branch_image 0xC9 0xE3) p.2 = some (.jcxz, 5) := by
      rw [branch_at, code, hva, hlength]
      decide
    rw [Harmless, hbranch]
    exact ⟨⟨hxor, by rw [hreg]; rfl⟩, Or.inl rfl⟩
  · rw [Apart]
    decide

/-- After `xor eax, eax` a jump on not zero is never taken, and it is forced. -/
theorem forced_jne_diverges : ¬ PreservesBranches wide_regs (branch_image 0xC0 0x75) 0x400000 := by
  have hdiverges : (opaque_sites (decode_fn (branch_image 0xC0 0x75) 0x400000 8192)).any (fun p =>
      let s : X86.Machine 64 := ⟨flags_after p.1 (0 : BitVec 32), 0⟩
      (branch_at (branch_image 0xC0 0x75) p.2).isSome &&
        (successor_at (resolve_opaque_predicates (branch_image 0xC0 0x75) 0x400000 false).2 p.2 s !=
          successor_at (branch_image 0xC0 0x75) p.2 s)) = true := by
    decide
  obtain ⟨p, hp, hsite⟩ := List.any_eq_true.mp hdiverges
  obtain ⟨hbranch, hgoes⟩ := Bool.and_eq_true_iff.mp hsite
  obtain ⟨⟨cond, disp⟩, hbranch⟩ := Option.isSome_iff_exists.mp hbranch
  intro hpreserves
  have hsite := hpreserves p hp
  rw [PreservesBranch, hbranch] at hsite
  exact bne_iff_ne.mp hgoes (hsite.1 _ behind_zero)

end slop.core.analysis.imgpatch
