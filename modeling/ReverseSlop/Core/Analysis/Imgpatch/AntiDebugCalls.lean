import ReverseSlop.Core.Analysis.Imgpatch.Code
import ReverseSlop.Core.Analysis.Imgpatch.DryRun
import ReverseSlop.Core.Analysis.Imgpatch.StaleIndex
import ReverseSlop.Library.X86

namespace slop.core.analysis.imgpatch

open disasm disasm.binary_state

/-- A call or a jump through the slot of a listed API, where the options ask for it. -/
def api_call_site (opts : anti_debug_opts_t) (bin : binary_t) (insn : insn_t) : Bool :=
  through_slot opts bin insn && (listed_api bin (call_slot bin insn)).isSome

/-- What the patch needs of the decoder: a call or a jump through memory has an opcode
and a ModRM byte and is no trap, and `rdtsc` has two bytes. -/
structure DecodesCalls (eng : engine_t) : Prop where
  length : ∀ va buf insn, eng.decode va buf = some insn → insn.flow = .call ∨ insn.flow = .jmp →
    insn.has_rip_rel = true ∨ (∃ op ∈ insn.ops.head?, op.cls = .mem) → 2 ≤ insn.length.toNat
  trap : ∀ va buf insn, eng.decode va buf = some insn → insn.flow = .call ∨ insn.flow = .jmp →
    insn.mnemonic ≠ .INT3 ∧ insn.mnemonic ≠ .INT ∧ insn.mnemonic ≠ .RDTSC
  rdtsc : ∀ va buf insn, eng.decode va buf = some insn → insn.mnemonic = .RDTSC → 2 ≤ insn.length.toNat

/-- Where the program goes on when the API returns: behind a call, and at the return
address of the caller for a jump. -/
def continuation (insn : insn_t) (ret : UInt64) : UInt64 :=
  if insn.flow = .call then insn.va + insn.length.toUInt64 else ret

/-- The journal of the second state has records of these addresses more. -/
def Rewrites (bin bin' : binary_t) (addrs : List UInt64) : Prop :=
  bin'.patches.map patch_rec_t.va = bin.patches.map patch_rec_t.va ++ addrs

/-- The patched bytes run to where the program went on, and the instruction's bytes
are what was rewritten. `mid` is the image when the loop reaches the instruction,
`bin'` the image in the end. -/
def ReturnsRight (opts : anti_debug_opts_t) (mid bin' : binary_t) (insn : insn_t) : Prop :=
  (∀ ret, (code bin' insn).bind (X86.straight insn.va) = some (continuation insn ret)) ∧
    Rewrites mid (patch_anti_debug_insn opts false mid insn).2 (range insn.va insn.length.toNat)

def PatchesCalls (opts : anti_debug_opts_t) (bin : binary_t) (fn_va : UInt64) : Prop :=
  ∀ before insn after, decode_fn bin fn_va 8192 = before ++ insn :: after → api_call_site opts bin insn = true →
    ReturnsRight opts (patch_anti_debug_insns opts false bin before).2 (patch_anti_debug bin fn_va opts false).2 insn

/-! The rewritten addresses. -/

theorem Rewrites.refl (bin : binary_t) : Rewrites bin bin [] := (List.append_nil _).symm

theorem Rewrites.trans {bin bin' bin'' : binary_t} {addrs addrs' : List UInt64} (h : Rewrites bin bin' addrs)
    (h' : Rewrites bin' bin'' addrs') : Rewrites bin bin'' (addrs ++ addrs') := by
  rw [Rewrites, h', h, List.append_assoc]

theorem poke_rewrites {bin : binary_t} {va : UInt64} (hmapped : (byte_at bin va).isSome = true) (byte : UInt8) :
    Rewrites bin (poke bin va byte).2 [va] := by
  obtain ⟨b, hb⟩ := Option.isSome_iff_exists.mp hmapped
  obtain ⟨off, hoff, hget⟩ := Option.bind_eq_some_iff.mp hb
  have hin : ¬ bin.file.length ≤ off := Nat.not_le_of_lt (List.getElem?_eq_some_iff.mp hget).1
  rw [Rewrites, poke, hoff]
  simp only [if_neg hin]
  exact List.map_append

theorem poke_isSome (bin : binary_t) (va va' : UInt64) (byte : UInt8) :
    (byte_at (poke bin va byte).2 va').isSome = (byte_at bin va').isSome := by
  rw [byte_at_poke]
  split
  · exact Option.isSome_map
  · rfl

theorem poke_all_rewrites {va : UInt64} {pokes : List (Nat × UInt8)} {bin : binary_t}
    (hmapped : ∀ p ∈ pokes, (byte_at bin (va + UInt64.ofNat p.1)).isSome = true) :
    Rewrites bin (poke_all bin va pokes) (pokes.map fun p => va + UInt64.ofNat p.1) := by
  induction pokes generalizing bin with
  | nil => exact Rewrites.refl bin
  | cons p rest ih =>
    obtain ⟨hp, hrest⟩ := List.forall_mem_cons.mp hmapped
    refine (poke_rewrites hp p.2).trans (ih fun p' hp' => ?_)
    rw [poke_isSome]
    exact hrest p' hp'

theorem fetch_isSome {bin : binary_t} {va : UInt64} {len : Nat} (hmapped : (fetch bin va len).isSome = true) {i : Nat}
    (hi : i < len) : (byte_at bin (va + UInt64.ofNat i)).isSome = true := by
  induction len generalizing va i with
  | zero => exact absurd hi (Nat.not_lt_zero i)
  | succ len ih =>
    obtain ⟨bytes, hfetch⟩ := Option.isSome_iff_exists.mp hmapped
    rw [fetch] at hfetch
    obtain ⟨byte, hbyte, hrest⟩ := Option.bind_eq_some_iff.mp hfetch
    obtain ⟨rest, hfetch', -⟩ := Option.map_eq_some_iff.mp hrest
    cases i with
    | zero =>
      have hva : va + UInt64.ofNat 0 = va := UInt64.add_zero va
      rw [hva, hbyte]
      rfl
    | succ i =>
      rw [add_succ]
      exact ih (by rw [hfetch']; rfl) (Nat.lt_of_succ_lt_succ hi)

theorem range_eq_map (va : UInt64) (len : Nat) : range va len = (List.range len).map fun b => va + UInt64.ofNat b := by
  induction len generalizing va with
  | zero => rfl
  | succ len ih =>
    have hva : va + UInt64.ofNat 0 = va := UInt64.add_zero va
    rw [range, ih, List.range_succ_eq_map, List.map_cons, List.map_map, hva]
    exact congrArg (va :: ·) (List.map_congr_left fun b _ => (add_succ va b).symm)

/-! One patched call. -/

/-- What the patch makes of the bytes of a call. -/
def neutral (len : Nat) (name : String) : List UInt8 :=
  if contains_text name "IsDebuggerPresent" then 0x31 :: 0xC0 :: List.replicate (len - 2) 0x90
  else List.replicate len 0x90

/-- What is poked into a call. -/
def neutral_bytes (len : Nat) (name : String) : List (Nat × UInt8) := (List.range len).zip (neutral len name)

theorem length_neutral {len : Nat} (hlength : 2 ≤ len) (name : String) : (neutral len name).length = len := by
  rw [neutral]
  split
  · rw [List.length_cons, List.length_cons, List.length_replicate]
    omega
  · exact List.length_replicate

theorem neutral_bytes_fst {len : Nat} (hlength : 2 ≤ len) (name : String) :
    (neutral_bytes len name).map Prod.fst = List.range len := by
  have hlengths : (List.range len).length = (neutral len name).length :=
    List.length_range.trans (length_neutral hlength name).symm
  exact List.map_fst_zip (Nat.le_of_eq hlengths)

theorem straight_neutral (ip : UInt64) {len : Nat} (hlength : 2 ≤ len) (name : String) :
    X86.straight ip (neutral len name) = some (ip + UInt64.ofNat len) := by
  rw [neutral]
  split
  · rw [X86.straight_xor_nops, Nat.add_sub_cancel' hlength]
  · exact X86.straight_nops ip len

theorem poke_nops_eq (bin : binary_t) (va : UInt64) (first len : Nat) :
    poke_all bin va ((List.range' first len).zip (List.replicate len 0x90)) =
      (List.range' first len).foldl (fun bin b => (poke bin (va + UInt64.ofNat b) 0x90).2) bin := by
  induction len generalizing bin first with
  | zero => rfl
  | succ len ih =>
    rw [List.range'_succ, List.replicate_succ, List.zip_cons_cons, List.foldl_cons, ← ih]
    rfl

variable {insn : insn_t}

theorem patch_api_call_eq (hlength : 2 ≤ insn.length.toNat) (bin : binary_t) (name : String) :
    (patch_api_call false bin insn name).2 = poke_all bin insn.va (neutral_bytes insn.length.toNat name) := by
  have hva : insn.va + UInt64.ofNat 0 = insn.va := UInt64.add_zero insn.va
  rw [patch_api_call, neutral_bytes, neutral]
  split
  · obtain ⟨len, hlen⟩ := Nat.exists_eq_add_of_le hlength
    rw [hlen, Nat.add_sub_cancel_left, List.range_eq_range', Nat.add_comm, List.range'_succ, List.range'_succ,
      List.zip_cons_cons, List.zip_cons_cons]
    have hnops := poke_nops_eq (poke_xor_eax bin insn.va) insn.va 2 len
    rw [poke_all, List.foldl_cons, List.foldl_cons, hva]
    exact hnops.symm
  · rw [List.range_eq_range', poke_nops_eq]
    rfl

theorem set_all_range' (bytes new : List UInt8) (first : Nat) (hlength : bytes.length = first + new.length) :
    set_all bytes ((List.range' first new.length).zip new) = bytes.take first ++ new := by
  induction new generalizing bytes first with
  | nil =>
    rw [List.append_nil]
    exact (List.take_of_length_le (Nat.le_of_eq hlength)).symm
  | cons byte new ih =>
    have hin : first < bytes.length := by
      rw [hlength, List.length_cons]
      omega
    have hlength' : (bytes.set first byte).length = first + 1 + new.length := by
      rw [List.length_set, hlength, List.length_cons]
      omega
    rw [List.length_cons, List.range'_succ, List.zip_cons_cons, set_all, List.foldl_cons]
    refine (ih (bytes.set first byte) (first + 1) hlength').trans ?_
    rw [List.take_add_one, List.take_set_of_le (Nat.le_refl first), List.getElem?_set_self hin, Option.toList_some,
      List.append_assoc]
    rfl

/-- Poking every byte gives the new bytes. -/
theorem set_all_neutral {bytes : List UInt8} (hlength : 2 ≤ bytes.length) (name : String) :
    set_all bytes (neutral_bytes bytes.length name) = neutral bytes.length name := by
  have hlen := length_neutral hlength name
  have hset := set_all_range' bytes (neutral bytes.length name) 0 (by rw [hlen, Nat.zero_add])
  rw [hlen, List.take_zero, List.nil_append] at hset
  rw [neutral_bytes, List.range_eq_range']
  exact hset

theorem neutral_bytes_lt {len : Nat} (hlength : 2 ≤ len) (name : String) :
    ∀ p ∈ neutral_bytes len name, p.1 < len := by
  intro p hp
  have hfst : p.1 ∈ (neutral_bytes len name).map Prod.fst := List.mem_map_of_mem hp
  rw [neutral_bytes_fst hlength] at hfst
  exact List.mem_range.mp hfst

theorem patch_api_call_code (hlength : 2 ≤ insn.length.toNat) {bin : binary_t}
    (hapart : (offsets bin insn.va insn.length.toNat).Nodup) (name : String) :
    code (patch_api_call false bin insn name).2 insn = (code bin insn).map fun _ => neutral insn.length.toNat name := by
  rw [patch_api_call_eq hlength, poke_all_code (neutral_bytes_lt hlength name) hapart]
  cases hcode : code bin insn with
  | none => rfl
  | some bytes =>
    have hbytes : bytes.length = insn.length.toNat := length_fetch hcode
    rw [← hbytes] at hlength ⊢
    exact congrArg some (set_all_neutral hlength name)

theorem patch_api_call_rewrites (hlength : 2 ≤ insn.length.toNat) {bin : binary_t}
    (hmapped : (code bin insn).isSome = true) (name : String) :
    Rewrites bin (patch_api_call false bin insn name).2 (range insn.va insn.length.toNat) := by
  rw [patch_api_call_eq hlength, range_eq_map, ← neutral_bytes_fst hlength name, List.map_map]
  apply poke_all_rewrites
  exact fun p hp => fetch_isSome hmapped (neutral_bytes_lt hlength name p hp)

/-! The loop over the instructions. -/

variable {bin bin' : binary_t}

theorem SameHeader.call_slot (h : SameHeader bin bin') (insn : insn_t) :
    call_slot bin' insn = call_slot bin insn := by
  rw [imgpatch.call_slot.eq_def, h.2.1, imgpatch.call_slot.eq_def]

theorem SameHeader.iat_find (h : SameHeader bin bin') (slot : UInt64) :
    iat_find bin' slot = iat_find bin slot := by
  rw [imgpatch.iat_find, iat_entries, h.2.1, h.2.2, imgpatch.iat_find, iat_entries]

theorem SameHeader.listed_api (h : SameHeader bin bin') (slot : UInt64) :
    listed_api bin' slot = listed_api bin slot := by
  rw [imgpatch.listed_api, h.iat_find, imgpatch.listed_api]

theorem SameHeader.through_slot (h : SameHeader bin bin') (opts : anti_debug_opts_t)
    (insn : insn_t) : through_slot opts bin' insn = through_slot opts bin insn := by
  rw [imgpatch.through_slot, h.call_slot, imgpatch.through_slot]

theorem SameHeader.anti_debug_site (h : SameHeader bin bin') (opts : anti_debug_opts_t)
    (insn : insn_t) : anti_debug_site opts bin' insn = anti_debug_site opts bin insn := by
  rw [imgpatch.anti_debug_site, h.through_slot, h.call_slot, h.listed_api, imgpatch.anti_debug_site]

/-- Patch one instruction. -/
def patch_insn (opts : anti_debug_opts_t) (bin : binary_t) (insn : insn_t) : binary_t :=
  (patch_anti_debug_insn opts false bin insn).2

/-- The loop patches the sites, one behind the other. -/
theorem patch_anti_debug_insns_foldl (opts : anti_debug_opts_t) {bin mid : binary_t} (hheader : SameHeader bin mid)
    (insns : List insn_t) :
    (patch_anti_debug_insns opts false mid insns).2 =
      (insns.filter (anti_debug_site opts bin)).foldl (patch_insn opts) mid := by
  induction insns generalizing mid with
  | nil => rfl
  | cons insn rest ih =>
    have hpatch : SameHeader mid (patch_insn opts mid insn) := (patch_anti_debug_insn_pokes opts false mid insn).sameHeader
    have hrest : (patch_anti_debug_insns opts false mid (insn :: rest)).2 =
        (patch_anti_debug_insns opts false (patch_insn opts mid insn) rest).2 := rfl
    rw [hrest, ih (hheader.trans hpatch), List.filter_cons]
    split
    · rfl
    · rename_i hsite
      have hquiet : (patch_anti_debug_insn opts false mid insn).1 = [] := by
        rw [patch_anti_debug_insn_hits, hheader.anti_debug_site]
        exact eq_false_of_ne_true hsite
      rw [patch_insn, patch_anti_debug_insn_quiet hquiet]

theorem call_slot_operand {bin : binary_t} {insn : insn_t} (hslot : call_slot bin insn ≠ 0) :
    insn.has_rip_rel = true ∨ ∃ op ∈ insn.ops.head?, op.cls = .mem := by
  rw [call_slot.eq_def] at hslot
  cases hrip : insn.has_rip_rel with
  | true => exact Or.inl rfl
  | false =>
    rw [hrip] at hslot
    cases hops : insn.ops with
    | nil =>
      rw [hops] at hslot
      exact absurd rfl hslot
    | cons op rest =>
      rw [hops] at hslot
      refine Or.inr ⟨op, rfl, ?_⟩
      by_contra hmem
      simp [hmem] at hslot

/-- What the patch needs of an instruction. -/
structure Patchable (insn : insn_t) : Prop where
  length : ∀ opts bin, through_slot opts bin insn = true → 2 ≤ insn.length.toNat
  trap : ∀ opts bin opts', through_slot opts bin insn = true → trap_site opts' insn = false
  rdtsc : insn.mnemonic = .RDTSC → 2 ≤ insn.length.toNat

theorem through_slot_flow {opts : anti_debug_opts_t} {bin : binary_t} {insn : insn_t}
    (hslot : through_slot opts bin insn = true) : (insn.flow = .call ∨ insn.flow = .jmp) ∧ call_slot bin insn ≠ 0 := by
  obtain ⟨hflow, hne⟩ := Bool.and_eq_true_iff.mp hslot
  have hcase := (Bool.and_eq_true_iff.mp hflow).2
  rw [Bool.or_eq_true, decide_eq_true_eq, decide_eq_true_eq] at hcase
  exact ⟨hcase, bne_iff_ne.mp hne⟩

theorem DecodesCalls.patchable {bin : binary_t} (hdecodes : DecodesCalls bin.eng) {fn_va : UInt64} {max : Nat}
    {insn : insn_t} (hinsn : insn ∈ decode_fn bin fn_va max) : Patchable insn := by
  obtain ⟨va, buf, -, hdecode, -⟩ := decode_fn_mem hinsn
  constructor
  · intro opts bin hslot
    obtain ⟨hflow, hne⟩ := through_slot_flow hslot
    exact hdecodes.length va buf insn hdecode hflow (call_slot_operand hne)
  · intro opts bin opts' hslot
    obtain ⟨hint3, hint, hrdtsc⟩ := hdecodes.trap va buf insn hdecode (through_slot_flow hslot).1
    simp [trap_site, hint3, hint, hrdtsc]
  · exact hdecodes.rdtsc va buf insn hdecode

theorem poke_nops_pokesIn (insn : insn_t) (bin : binary_t) :
    PokesIn insn bin (poke_nops bin insn.va 0 insn.length.toNat) := by
  have heq : poke_nops bin insn.va 0 insn.length.toNat =
      poke_all bin insn.va ((List.range' 0 insn.length.toNat).zip (List.replicate insn.length.toNat 0x90)) := by
    rw [poke_nops_eq]
    rfl
  rw [heq]
  apply poke_all_pokesIn
  intro p hp
  have hrange := List.mem_range'_1.mp (List.of_mem_zip hp).1
  omega

theorem poke_xor_eax_pokesIn (hlength : 2 ≤ insn.length.toNat) (bin : binary_t) :
    PokesIn insn bin (poke_xor_eax bin insn.va) := by
  have hva : insn.va + UInt64.ofNat 0 = insn.va := UInt64.add_zero insn.va
  have heq : poke_xor_eax bin insn.va = poke_all bin insn.va [(0, 0x31), (1, 0xC0)] := by
    rw [poke_all, List.foldl_cons, List.foldl_cons, List.foldl_nil, hva]
    rfl
  rw [heq]
  apply poke_all_pokesIn
  refine List.forall_mem_cons.mpr ⟨?_, List.forall_mem_singleton.mpr hlength⟩
  exact Nat.lt_of_lt_of_le Nat.two_pos hlength

theorem patch_trap_pokesIn (hpatchable : Patchable insn) (opts : anti_debug_opts_t) (bin : binary_t) :
    PokesIn insn bin (patch_trap opts false bin insn).2 := by
  rw [patch_trap]
  split
  · exact poke_nops_pokesIn insn bin
  split
  · rename_i hrdtsc
    exact poke_xor_eax_pokesIn (hpatchable.rdtsc (of_decide_eq_true (Bool.and_eq_true_iff.mp hrdtsc).2)) bin
  · exact PokesIn.refl insn bin

/-- An instruction that calls a listed API is neutralized and nothing else. -/
theorem patch_insn_call (hpatchable : Patchable insn) {opts : anti_debug_opts_t} {bin : binary_t}
    {name : String} (hslot : through_slot opts bin insn = true) (hname : listed_api bin (call_slot bin insn) = some name) :
    patch_insn opts bin insn = (patch_api_call false bin insn name).2 := by
  have htrap : trap_site opts insn = false := hpatchable.trap opts bin opts hslot
  have hif : (opts.patch_api_calls && (insn.flow = .call || insn.flow = .jmp) && call_slot bin insn != 0) = true := hslot
  rw [listed_api] at hname
  simp only [patch_insn, patch_anti_debug_insn, if_pos hif, hname]
  exact patch_trap_quiet ((patch_trap_hits opts false _ insn).mpr htrap)

theorem patch_insn_pokesIn (hpatchable : Patchable insn) (opts : anti_debug_opts_t) (bin : binary_t) :
    PokesIn insn bin (patch_insn opts bin insn) := by
  by_cases hslot : through_slot opts bin insn = true
  · cases hname : listed_api bin (call_slot bin insn) with
    | none =>
      have hquiet : (patch_anti_debug_insn opts false bin insn).1 = [] := by
        rw [patch_anti_debug_insn_hits, anti_debug_site, if_pos hslot, hname]
        rfl
      rw [patch_insn, patch_anti_debug_insn_quiet hquiet]
      exact PokesIn.refl insn bin
    | some name =>
      have hlength := hpatchable.length opts bin hslot
      rw [patch_insn_call hpatchable hslot hname, patch_api_call_eq hlength]
      exact poke_all_pokesIn (neutral_bytes_lt hlength name) bin
  · have hif : ¬ (opts.patch_api_calls && (insn.flow = .call || insn.flow = .jmp) && call_slot bin insn != 0) = true := hslot
    simp only [patch_insn, patch_anti_debug_insn, if_neg hif]
    exact patch_trap_pokesIn hpatchable opts bin

/-! The patched calls of a function. -/

/-- The instructions of a function that are patched. -/
def anti_debug_sites (opts : anti_debug_opts_t) (bin : binary_t) (fn_va : UInt64) : List insn_t :=
  (decode_fn bin fn_va 8192).filter (anti_debug_site opts bin)

theorem api_call_site_name {opts : anti_debug_opts_t} {bin : binary_t} {insn : insn_t}
    (hsite : api_call_site opts bin insn = true) :
    through_slot opts bin insn = true ∧ (∃ name, listed_api bin (call_slot bin insn) = some name) ∧
      anti_debug_site opts bin insn = true := by
  obtain ⟨hslot, hlisted⟩ := Bool.and_eq_true_iff.mp hsite
  refine ⟨hslot, Option.isSome_iff_exists.mp hlisted, ?_⟩
  rw [anti_debug_site, if_pos hslot]
  exact hlisted

/-- What the loop finds and leaves at a call that it patches. -/
theorem patched_call {opts : anti_debug_opts_t} {bin : binary_t} {fn_va : UInt64} (hdecodes : DecodesCalls bin.eng)
    (hapart : Apart bin (anti_debug_sites opts bin fn_va)) {before after : List insn_t} {insn : insn_t}
    (hsplit : decode_fn bin fn_va 8192 = before ++ insn :: after) (hsite : api_call_site opts bin insn = true) :
    2 ≤ insn.length.toNat ∧ ∃ name,
      code (patch_anti_debug bin fn_va opts false).2 insn = (code bin insn).map (fun _ => neutral insn.length.toNat name) ∧
        ((code bin insn).isSome = true →
          Rewrites (patch_anti_debug_insns opts false bin before).2
            (patch_anti_debug_insn opts false (patch_anti_debug_insns opts false bin before).2 insn).2
            (range insn.va insn.length.toNat)) := by
  have hpatchable : ∀ x ∈ decode_fn bin fn_va 8192, Patchable x := fun x hx => hdecodes.patchable hx
  have hinsn : Patchable insn := hpatchable insn (hsplit ▸ List.mem_append_right before List.mem_cons_self)
  obtain ⟨hslot, ⟨name, hname⟩, hpatched⟩ := api_call_site_name hsite
  have hlength := hinsn.length opts bin hslot
  have hlocal : ∀ x ∈ anti_debug_sites opts bin fn_va, ∀ bin, PokesIn x bin (patch_insn opts bin x) :=
    fun x hx => patch_insn_pokesIn (hpatchable x (List.mem_filter.mp hx).1) opts
  have hsites : anti_debug_sites opts bin fn_va =
      before.filter (anti_debug_site opts bin) ++ insn :: after.filter (anti_debug_site opts bin) := by
    rw [anti_debug_sites, hsplit, List.filter_append, List.filter_cons_of_pos hpatched]
  have hfinal : code (patch_anti_debug bin fn_va opts false).2 insn =
      code ((anti_debug_sites opts bin fn_va).foldl (patch_insn opts) bin) insn := by
    rw [patch_anti_debug, finish_code, patch_anti_debug_insns_foldl opts (SameHeader.refl bin)]
    rfl
  have hmid := patch_anti_debug_insns_foldl opts (SameHeader.refl bin) before
  rw [hsites] at hlocal hapart hfinal
  obtain ⟨hheader, hbefore, hcode⟩ := foldl_code hlocal hapart
  rw [← hmid] at hheader hbefore hcode
  have hnodup := (List.nodup_flatMap.mp hapart).1 insn (List.mem_append_right _ List.mem_cons_self)
  rw [← hheader.offsets] at hnodup
  rw [← hheader.through_slot] at hslot
  rw [← hheader.listed_api, ← hheader.call_slot] at hname
  have hpatch := patch_insn_call hinsn hslot hname
  refine ⟨hlength, name, ?_, fun hmapped => ?_⟩
  · rw [hfinal, hcode, hpatch, patch_api_call_code hlength hnodup, hbefore]
  · rw [← hbefore] at hmapped
    rw [patch_insn] at hpatch
    rw [hpatch]
    exact patch_api_call_rewrites hlength hmapped name

/-- Where the patched instructions lie apart in the file, every patched call of a
listed API goes on where it did exactly when it is no jump and all of it is mapped. -/
theorem patches_calls_iff (opts : anti_debug_opts_t) (bin : binary_t) (fn_va : UInt64) (hdecodes : DecodesCalls bin.eng)
    (hapart : Apart bin (anti_debug_sites opts bin fn_va)) :
    PatchesCalls opts bin fn_va ↔
      ∀ insn ∈ decode_fn bin fn_va 8192, api_call_site opts bin insn = true →
        insn.flow = .call ∧ (code bin insn).isSome = true := by
  constructor
  · intro hright insn hinsn hsite
    obtain ⟨before, after, hsplit⟩ := List.append_of_mem hinsn
    obtain ⟨hlength, name, hcode, -⟩ := patched_call hdecodes hapart hsplit hsite
    have hruns := (hright before insn after hsplit hsite).1
    cases hmapped : code bin insn with
    | none =>
      have hlost := hruns 0
      rw [hcode, hmapped] at hlost
      cases hlost
    | some bytes =>
      rw [hmapped, Option.map_some] at hcode
      rw [hcode] at hruns
      refine ⟨?_, rfl⟩
      by_contra hjmp
      have hsame : (0 : UInt64) = 1 := by
        have hzero := (hruns 0).symm.trans (hruns 1)
        rw [continuation, if_neg hjmp, continuation, if_neg hjmp, Option.some.injEq] at hzero
        exact hzero
      exact absurd hsame (by decide)
  · intro hcalls before insn after hsplit hsite
    have hinsn : insn ∈ decode_fn bin fn_va 8192 := hsplit ▸ List.mem_append_right before List.mem_cons_self
    obtain ⟨hcall, hmapped⟩ := hcalls insn hinsn hsite
    obtain ⟨hlength, name, hcode, hrewrites⟩ := patched_call hdecodes hapart hsplit hsite
    refine ⟨fun ret => ?_, hrewrites hmapped⟩
    obtain ⟨bytes, hbytes⟩ := Option.isSome_iff_exists.mp hmapped
    rw [hcode, hbytes, Option.map_some, Option.bind_some, straight_neutral insn.va hlength, continuation, if_pos hcall,
      UInt64.ofNat_uInt8ToNat]

/-- Decodes the call and the jump through a slot relative to the next instruction. -/
def slot_decode (va : UInt64) (buf : List UInt8) : Option insn_t :=
  match buf.take 6 with
  | [opcode, modrm, a, b, c, d] =>
    if opcode = 0xFF ∧ (modrm = 0x15 ∨ modrm = 0x25) then
      some
        { va, length := 6, bytes := [opcode, modrm, a, b, c, d], flow := if modrm = 0x15 then .call else .jmp
          ops := [{ cls := .mem, mem_base := 197 }]
          has_rip_rel := true, rip_rel_target := va + 6 + X86.disp32 a b c d }
    else none
  | _ => none

/-- A function that is one call or one jump of `IsDebuggerPresent`. -/
def slot_image (modrm : UInt8) : binary_t :=
  let imports : List pe_import_dll_t := [⟨"KERNEL32.dll", [{ name := "IsDebuggerPresent", iat_rva := 0x40 }]⟩]
  { sample_image with
    file := [0xFF, modrm, 0x3A, 0, 0, 0] ++ List.replicate 16 0
    eng := ⟨slot_decode⟩, pe := { sample_image.pe with imports } }

theorem slot_decodes : DecodesCalls ⟨slot_decode⟩ := by
  have hcases : ∀ va buf insn, slot_decode va buf = some insn → insn.length = 6 ∧ insn.mnemonic = .other 0 := by
    intro va buf insn hdecode
    rw [slot_decode] at hdecode
    split at hdecode
    · split at hdecode
      · cases hdecode
        exact ⟨rfl, rfl⟩
      · cases hdecode
    · cases hdecode
  constructor
  · intro va buf insn hdecode _ _
    rw [(hcases va buf insn hdecode).1]
    decide
  · intro va buf insn hdecode _
    rw [(hcases va buf insn hdecode).2]
    decide
  · intro va buf insn hdecode hrdtsc
    rw [(hcases va buf insn hdecode).2] at hrdtsc
    cases hrdtsc

/-- A call of `IsDebuggerPresent` returns behind the call. -/
theorem patched_call_returns : PatchesCalls {} (slot_image 0x15) 0x400000 := by
  apply (patches_calls_iff {} (slot_image 0x15) 0x400000 slot_decodes ?_).mpr
  · have hcall : (decode_fn (slot_image 0x15) 0x400000 8192).all (fun insn =>
        insn.flow = .call && (code (slot_image 0x15) insn).isSome) = true := by
      decide
    intro insn hinsn _
    obtain ⟨hflow, hmapped⟩ := Bool.and_eq_true_iff.mp (List.all_eq_true.mp hcall insn hinsn)
    exact ⟨of_decide_eq_true hflow, hmapped⟩
  · rw [Apart]
    decide

/-- A tail jump to `IsDebuggerPresent` runs into what stands behind it. -/
theorem patched_jump_runs_on : ¬ PatchesCalls {} (slot_image 0x25) 0x400000 := by
  have hruns : (decode_fn (slot_image 0x25) 0x400000 8192).any (fun insn =>
      (api_call_site {} (slot_image 0x25) insn && insn.flow != .call) &&
        (code (patch_anti_debug (slot_image 0x25) 0x400000 {} false).2 insn).bind (X86.straight insn.va) != some 0) =
      true := by
    decide
  obtain ⟨insn, hinsn, hsite⟩ := List.any_eq_true.mp hruns
  obtain ⟨hsite, hdiffers⟩ := Bool.and_eq_true_iff.mp hsite
  obtain ⟨hsite, hjmp⟩ := Bool.and_eq_true_iff.mp hsite
  obtain ⟨before, after, hsplit⟩ := List.append_of_mem hinsn
  intro hright
  have hreturns := (hright before insn after hsplit hsite).1 0
  rw [continuation, if_neg (bne_iff_ne.mp hjmp)] at hreturns
  exact absurd hreturns (bne_iff_ne.mp hdiffers)

end slop.core.analysis.imgpatch
