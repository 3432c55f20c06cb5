import ReverseSlop.Core.Analysis.Imgpatch.OpaqueJumps
import ReverseSlop.Core.Analysis.Imgpatch.Regions

namespace slop.core.analysis.imgpatch

open disasm disasm.binary_state

/-- A poke at the address finds a byte of the file. -/
def has_byte (bin : binary_t) (va : UInt64) : Bool := (bin.offset_of va).any fun off => decide (off < bin.file.length)

/-- The same addresses have a byte of the file, and records have been appended for those of some addresses that do. -/
structure Grows (bin bin' : binary_t) (addrs : List UInt64) : Prop where
  appends : Appends bin bin' (addrs.countP (has_byte bin))
  header : SameHeader bin bin'
  length : bin'.file.length = bin.file.length

section

variable {bin bin' bin'' : binary_t} {addrs addrs' : List UInt64}

theorem Grows.has_byte (h : Grows bin bin' addrs) : has_byte bin' = has_byte bin := by
  funext va
  rw [imgpatch.has_byte, h.header.offset_of, h.length, imgpatch.has_byte]

theorem Grows.refl (bin : binary_t) : Grows bin bin [] := ⟨Appends.refl bin, SameHeader.refl bin, rfl⟩

theorem Grows.trans (h : Grows bin bin' addrs) (h' : Grows bin' bin'' addrs') : Grows bin bin'' (addrs ++ addrs') := by
  refine ⟨?_, h.header.trans h'.header, h'.length.trans h.length⟩
  have happends := h'.appends
  rw [h.has_byte] at happends
  rw [List.countP_append]
  exact h.appends.trans happends

theorem Grows.mark (h : Grows bin bin' addrs) : Grows bin { bin' with indexes_dirty := true } addrs :=
  ⟨h.appends, h.header, h.length⟩

end

theorem poke_grows (bin : binary_t) (va : UInt64) (byte : UInt8) : Grows bin (poke bin va byte).2 [va] := by
  refine ⟨?_, poke_sameHeader bin va byte, ?_⟩
  · rw [poke, List.countP_singleton, has_byte]
    cases bin.offset_of va with
    | none => exact Appends.refl bin
    | some off =>
      dsimp only [Option.any_some]
      by_cases hin : bin.file.length ≤ off
      · rw [if_pos hin, if_neg (by simpa using hin)]
        exact Appends.refl bin
      · rw [if_neg hin, if_pos (by simpa using hin)]
        exact journal_write_appends (quiesce bin) va off byte
  · rw [poke_file]
    cases bin.offset_of va with
    | none => rfl
    | some off => exact List.length_set ..

/-- The addresses of an instruction from its byte `first` on. -/
def addresses (va : UInt64) (first len : Nat) : List UInt64 := (List.range' first (len - first)).map fun b => va + UInt64.ofNat b

theorem poke_nops_grows (bin : binary_t) (va : UInt64) (first len : Nat) :
    Grows bin (poke_nops bin va first len) (addresses va first len) := by
  rw [poke_nops, addresses]
  induction List.range' first (len - first) generalizing bin with
  | nil => exact Grows.refl bin
  | cons b l ih =>
    rw [List.foldl_cons, List.map_cons]
    exact (poke_grows bin _ 0x90).trans (ih _)

/-! The addresses that the hits of an operation write to, a list for each hit. -/

/-- The dead code behind an instruction that does not fall through. -/
def dead_code (targets : List UInt64) (filled : Nat) (head : Bool) : List insn_t → List UInt64
  | [] => []
  | insn :: rest =>
    if filled ≥ 64 || (targets.contains insn.va && !head) || insn.flow = .ret then []
    else addresses insn.va 0 insn.length.toNat ++ dead_code targets (filled + insn.length.toNat) false rest

def dead_heads (targets : List UInt64) (prev : insn_t) : List insn_t → List (List UInt64)
  | [] => []
  | insn :: rest =>
    if targets.contains insn.va || falls_through prev then dead_heads targets insn rest
    else dead_code targets 0 true (insn :: rest) :: dead_heads targets insn rest

/-- A long run of nops is a hit that writes nothing. -/
def junk_sites (aggressive : Bool) (nop_threshold : Nat) (insns : List insn_t) : List (List UInt64) :=
  match insns with
  | [] => []
  | first :: rest =>
    let targets := (insns.filter (·.has_rel_target)).map (·.rel_target)
    (insns.foldl (note_nop (min (max nop_threshold 2) 16)) {}).patches.map (fun _ => []) ++
      if aggressive then dead_heads targets first rest else []

def jump_sites (prev : insn_t) : List insn_t → List (List UInt64)
  | [] => []
  | insn :: rest =>
    if opaque_site prev insn then (forced_bytes insn).map (fun p => insn.va + UInt64.ofNat p.1) :: jump_sites insn rest
    else jump_sites insn rest

def forced_sites : List insn_t → List (List UInt64)
  | [] => []
  | first :: rest => jump_sites first rest

def trap_sites (opts : anti_debug_opts_t) (insn : insn_t) : List (List UInt64) :=
  if opts.patch_int_traps && (insn.mnemonic = .INT3 || insn.mnemonic = .INT) then [addresses insn.va 0 insn.length.toNat]
  else if opts.patch_timing && insn.mnemonic = .RDTSC then [[insn.va, insn.va + 1]]
  else []

def call_site (insn : insn_t) (name : String) : List UInt64 :=
  if contains_text name "IsDebuggerPresent" then insn.va :: (insn.va + 1) :: addresses insn.va 2 insn.length.toNat
  else addresses insn.va 0 insn.length.toNat

def insn_sites (opts : anti_debug_opts_t) (bin : binary_t) (insn : insn_t) : List (List UInt64) :=
  if through_slot opts bin insn then
    match listed_api bin (call_slot bin insn) with
    | none => []
    | some name => call_site insn name :: trap_sites opts insn
  else trap_sites opts insn

theorem fill_dead_grows (targets : List UInt64) (bin : binary_t) (filled : Nat) (head : Bool) (insns : List insn_t) :
    Grows bin (fill_dead targets bin filled head insns).2 (dead_code targets filled head insns) := by
  induction insns generalizing bin filled head with
  | nil => exact Grows.refl bin
  | cons insn rest ih =>
    rw [fill_dead, dead_code]
    split
    · exact Grows.refl bin
    · exact (poke_nops_grows bin insn.va 0 _).trans (ih _ _ _)

theorem nop_dead_heads_grows (targets : List UInt64) (bin : binary_t) (prev : insn_t) (insns : List insn_t) :
    Grows bin (nop_dead_heads targets bin prev insns).2 (dead_heads targets prev insns).flatten ∧
      (nop_dead_heads targets bin prev insns).1.length = (dead_heads targets prev insns).length := by
  induction insns generalizing bin prev with
  | nil => exact ⟨Grows.refl bin, rfl⟩
  | cons insn rest ih =>
    rw [nop_dead_heads, dead_heads]
    split
    · exact ih bin insn
    · obtain ⟨hgrows, hlength⟩ := ih (fill_dead targets bin 0 true (insn :: rest)).2 insn
      exact ⟨(fill_dead_grows targets bin 0 true (insn :: rest)).trans hgrows, congrArg Nat.succ hlength⟩

theorem force_jmp_grows (bin : binary_t) (insn : insn_t) :
    Grows bin (force_jmp bin insn) ((forced_bytes insn).map fun p => insn.va + UInt64.ofNat p.1) := by
  rw [force_jmp_eq, poke_all]
  induction forced_bytes insn generalizing bin with
  | nil => exact Grows.refl bin
  | cons p pokes ih =>
    rw [List.foldl_cons, List.map_cons]
    exact (poke_grows bin _ p.2).trans (ih _)

theorem force_jumps_grows (bin : binary_t) (prev : insn_t) (insns : List insn_t) :
    Grows bin (force_jumps false bin prev insns).2 (jump_sites prev insns).flatten ∧
      (force_jumps false bin prev insns).1.length = (jump_sites prev insns).length := by
  induction insns generalizing bin prev with
  | nil => exact ⟨Grows.refl bin, rfl⟩
  | cons insn rest ih =>
    rw [force_jumps, jump_sites, opaque_site]
    split
    · obtain ⟨hgrows, hlength⟩ := ih (force_jmp bin insn) insn
      exact ⟨(force_jmp_grows bin insn).trans hgrows, congrArg Nat.succ hlength⟩
    · exact ih bin insn

theorem poke_xor_eax_grows (bin : binary_t) (va : UInt64) : Grows bin (poke_xor_eax bin va) [va, va + 1] :=
  (poke_grows bin va 0x31).trans (poke_grows _ (va + 1) 0xC0)

theorem patch_api_call_grows (bin : binary_t) (insn : insn_t) (name : String) :
    Grows bin (patch_api_call false bin insn name).2 (call_site insn name) := by
  rw [patch_api_call, call_site]
  split
  · exact (poke_xor_eax_grows bin insn.va).trans (poke_nops_grows _ insn.va 2 _)
  · exact poke_nops_grows bin insn.va 0 _

theorem patch_trap_grows (opts : anti_debug_opts_t) (bin : binary_t) (insn : insn_t) :
    Grows bin (patch_trap opts false bin insn).2 (trap_sites opts insn).flatten ∧
      (patch_trap opts false bin insn).1.length = (trap_sites opts insn).length := by
  rw [patch_trap, trap_sites]
  split
  · rw [List.flatten_singleton]
    exact ⟨poke_nops_grows bin insn.va 0 _, rfl⟩
  split
  · rw [List.flatten_singleton]
    exact ⟨poke_xor_eax_grows bin insn.va, rfl⟩
  · exact ⟨Grows.refl bin, rfl⟩

theorem patch_anti_debug_insn_grows (opts : anti_debug_opts_t) (bin : binary_t) (insn : insn_t) :
    Grows bin (patch_anti_debug_insn opts false bin insn).2 (insn_sites opts bin insn).flatten ∧
      (patch_anti_debug_insn opts false bin insn).1.length = (insn_sites opts bin insn).length := by
  simp only [patch_anti_debug_insn]
  rw [insn_sites, through_slot, listed_api]
  split
  · cases (iat_find bin (call_slot bin insn)).filter fun name => kApis.any (contains_text name) with
    | none => exact ⟨Grows.refl bin, rfl⟩
    | some name =>
      obtain ⟨hgrows, hlength⟩ := patch_trap_grows opts (patch_api_call false bin insn name).2 insn
      exact ⟨(patch_api_call_grows bin insn name).trans hgrows, congrArg Nat.succ hlength⟩
  · exact patch_trap_grows opts bin insn

/-- The sites do not depend on what has been written. -/
theorem insn_sites_congr (opts : anti_debug_opts_t) {bin bin' : binary_t} (h : SameHeader bin bin') (insn : insn_t) :
    insn_sites opts bin' insn = insn_sites opts bin insn := by
  have hentries : iat_entries bin' = iat_entries bin := by rw [iat_entries, iat_entries, h.2.1, h.2.2]
  have hslot : call_slot bin' insn = call_slot bin insn := by rw [call_slot, call_slot, h.2.1]
  rw [insn_sites, insn_sites, through_slot, through_slot, listed_api, listed_api, iat_find, iat_find, hentries, hslot]

theorem patch_anti_debug_insns_grows (opts : anti_debug_opts_t) (bin : binary_t) (insns : List insn_t) :
    Grows bin (patch_anti_debug_insns opts false bin insns).2 (insns.flatMap (insn_sites opts bin)).flatten ∧
      (patch_anti_debug_insns opts false bin insns).1.length = (insns.flatMap (insn_sites opts bin)).length := by
  induction insns generalizing bin with
  | nil => exact ⟨Grows.refl bin, rfl⟩
  | cons insn rest ih =>
    rw [patch_anti_debug_insns]
    obtain ⟨hinsn, hlength⟩ := patch_anti_debug_insn_grows opts bin insn
    obtain ⟨hrest, hlengths⟩ := ih (patch_anti_debug_insn opts false bin insn).2
    rw [funext (insn_sites_congr opts hinsn.header)] at hrest hlengths
    rw [List.flatMap_cons, List.flatten_append]
    refine ⟨hinsn.trans hrest, ?_⟩
    change List.length (_ ++ _) = _
    rw [List.length_append, hlength, hlengths, List.length_append]

/-- The epilogue counts the hits, none of which is a preview. -/
theorem finish_grows {bin bin' : binary_t} {addrs : List UInt64} {res : op_result_t} (h : Grows bin bin' addrs)
    (hactions : ∀ p ∈ res.patches, p.action ≠ "preview") (hzero : res.bytes_changed = 0) :
    (finish res bin').1.ok = true ∧ (finish res bin').1.bytes_changed = res.patches.length ∧
      Grows bin (finish res bin').2 addrs := by
  have hall : res.patches.filter (fun p => p.action != "preview") = res.patches :=
    List.filter_eq_self.mpr fun p hp => bne_iff_ne.mpr (hactions p hp)
  rw [finish, hall, hzero, Nat.zero_add]
  refine ⟨rfl, rfl, ?_⟩
  dsimp only
  split
  · exact h
  · exact h.mark

theorem note_nop_actions {nop_threshold : Nat} {acc : nop_run_t} (insn : insn_t)
    (hacc : ∀ p ∈ acc.patches, p.action ≠ "preview") : ∀ p ∈ (note_nop nop_threshold acc insn).patches, p.action ≠ "preview" := by
  rw [note_nop]
  split
  · exact hacc
  split
  · exact List.forall_mem_append.mpr ⟨hacc, List.forall_mem_singleton.mpr (by simp)⟩
  · exact hacc

theorem note_nops_actions {nop_threshold : Nat} {acc : nop_run_t} (insns : List insn_t)
    (hacc : ∀ p ∈ acc.patches, p.action ≠ "preview") :
    ∀ p ∈ (insns.foldl (note_nop nop_threshold) acc).patches, p.action ≠ "preview" := by
  induction insns generalizing acc with
  | nil => exact hacc
  | cons insn insns ih => exact ih (note_nop_actions insn hacc)

theorem nop_dead_heads_actions (targets : List UInt64) (bin : binary_t) (prev : insn_t) (insns : List insn_t) :
    ∀ p ∈ (nop_dead_heads targets bin prev insns).1, p.action ≠ "preview" := by
  induction insns generalizing bin prev with
  | nil => exact List.forall_mem_nil _
  | cons insn rest ih =>
    rw [nop_dead_heads]
    split
    · exact ih bin insn
    · exact List.forall_mem_cons.mpr ⟨by simp, ih _ insn⟩

/-! The operations. -/

/-- A byte is reported for each site, if there are any, and the records are those of the addresses. -/
structure Counts (bin : binary_t) (sites : List (List UInt64)) (ok : Bool) (reported : Nat) (bin' : binary_t) : Prop where
  grows : Grows bin bin' sites.flatten
  reported : reported = sites.length
  failed : ok = false → sites = []

theorem nop_junk_counts (bin : binary_t) (fn_va : UInt64) (aggressive : Bool) (nop_threshold : Nat) :
    Counts bin (junk_sites aggressive nop_threshold (decode_fn bin fn_va 8192)) (nop_junk bin fn_va aggressive nop_threshold).1.ok
      (nop_junk bin fn_va aggressive nop_threshold).1.bytes_changed (nop_junk bin fn_va aggressive nop_threshold).2 := by
  rw [nop_junk]
  cases hdecode : decode_fn bin fn_va 8192 with
  | nil => exact ⟨Grows.refl bin, rfl, fun _ => rfl⟩
  | cons first rest =>
    have hsleds : ∀ p ∈ ((first :: rest).foldl (note_nop (min (max nop_threshold 2) 16)) {}).patches, p.action ≠ "preview" :=
      note_nops_actions (first :: rest) (List.forall_mem_nil _)
    have hempty : ∀ hits : List patch_hit_t, (hits.map fun _ => ([] : List UInt64)).flatten = [] := fun hits => by
      rw [List.flatten_eq_nil_iff, List.forall_mem_map]
      exact fun _ _ => rfl
    cases aggressive with
    | true =>
      obtain ⟨hgrows, hlength⟩ := nop_dead_heads_grows (((first :: rest).filter (·.has_rel_target)).map (·.rel_target)) bin first rest
      obtain ⟨hok, hbytes, hfinish⟩ := @finish_grows bin _ _ { patches := _ ++ _ } hgrows
        (List.forall_mem_append.mpr ⟨hsleds, nop_dead_heads_actions _ bin first rest⟩) rfl
      refine ⟨?_, hbytes.trans ?_, fun hfail => absurd (hok.symm.trans hfail) (by decide)⟩
      · rw [junk_sites, if_pos rfl, List.flatten_append, hempty]
        exact hfinish
      · rw [junk_sites, if_pos rfl, List.length_append, List.length_append, List.length_map, hlength]
    | false =>
      obtain ⟨hok, hbytes, hfinish⟩ := @finish_grows bin _ _ { patches := _ ++ [] } (Grows.refl bin)
        (List.forall_mem_append.mpr ⟨hsleds, List.forall_mem_nil _⟩) rfl
      refine ⟨?_, hbytes.trans ?_, fun hfail => absurd (hok.symm.trans hfail) (by decide)⟩
      · rw [junk_sites, if_neg Bool.false_ne_true, List.flatten_append, hempty]
        exact hfinish
      · rw [junk_sites, if_neg Bool.false_ne_true, List.length_append, List.length_append, List.length_map]
        rfl

theorem resolve_counts (bin : binary_t) (fn_va : UInt64) :
    Counts bin (forced_sites (decode_fn bin fn_va 8192)) (resolve_opaque_predicates bin fn_va false).1.ok
      (resolve_opaque_predicates bin fn_va false).1.bytes_changed (resolve_opaque_predicates bin fn_va false).2 := by
  rw [resolve_opaque_predicates]
  cases decode_fn bin fn_va 8192 with
  | nil => exact ⟨Grows.refl bin, rfl, fun _ => rfl⟩
  | cons first rest =>
    obtain ⟨hgrows, hlength⟩ := force_jumps_grows bin first rest
    obtain ⟨hok, hbytes, hfinish⟩ := @finish_grows bin _ _ { patches := (force_jumps false bin first rest).1 } hgrows
      (force_jumps_actions false bin first rest) rfl
    exact ⟨hfinish, hbytes.trans hlength, fun hfail => absurd (hok.symm.trans hfail) (by decide)⟩

theorem patch_anti_debug_counts (opts : anti_debug_opts_t) (bin : binary_t) (fn_va : UInt64) :
    Counts bin ((decode_fn bin fn_va 8192).flatMap (insn_sites opts bin)) (patch_anti_debug bin fn_va opts false).1.ok
      (patch_anti_debug bin fn_va opts false).1.bytes_changed (patch_anti_debug bin fn_va opts false).2 := by
  obtain ⟨hgrows, hlength⟩ := patch_anti_debug_insns_grows opts bin (decode_fn bin fn_va 8192)
  obtain ⟨hok, hbytes, hfinish⟩ := @finish_grows bin _ _
    { patches := (patch_anti_debug_insns opts false bin (decode_fn bin fn_va 8192)).1 } hgrows
    (patch_anti_debug_insns_actions opts false bin _) rfl
  exact ⟨hfinish, hbytes.trans hlength, fun hfail => absurd (hok.symm.trans hfail) (by decide)⟩

/-- The sites of the passes, each over the code that the passes before have left. -/
def full_pass_sites (bin : binary_t) (fn_va : UInt64) : List (List UInt64) :=
  let resolved := (resolve_opaque_predicates bin fn_va false).2
  let aggressive : Bool := obfuscation_score bin fn_va ≥ 50
  let cleaned := (nop_junk resolved fn_va aggressive 4).2
  forced_sites (decode_fn bin fn_va 8192) ++ junk_sites aggressive 4 (decode_fn resolved fn_va 8192) ++
    (decode_fn cleaned fn_va 8192).flatMap (insn_sites {} cleaned)

theorem full_pass_counts (bin : binary_t) (fn_va : UInt64) :
    Counts bin (full_pass_sites bin fn_va) (full_pass bin fn_va false).1.ok (full_pass bin fn_va false).1.bytes_changed
      (full_pass bin fn_va false).2 := by
  have hopq := resolve_counts bin fn_va
  have hjunk := nop_junk_counts (resolve_opaque_predicates bin fn_va false).2 fn_va (obfuscation_score bin fn_va ≥ 50) 4
  have hdebug := patch_anti_debug_counts {}
    (nop_junk (resolve_opaque_predicates bin fn_va false).2 fn_va (obfuscation_score bin fn_va ≥ 50) 4).2 fn_va
  refine ⟨?_, ?_, fun hfail => absurd hfail (by simp [full_pass])⟩
  · rw [full_pass_sites, List.flatten_append, List.flatten_append]
    exact (hopq.grows.trans hjunk.grows).trans hdebug.grows
  · have hsum : (full_pass bin fn_va false).1.bytes_changed =
        (nop_junk (resolve_opaque_predicates bin fn_va false).2 fn_va (obfuscation_score bin fn_va ≥ 50) 4).1.bytes_changed +
          ((resolve_opaque_predicates bin fn_va false).1.bytes_changed + (patch_anti_debug
            (nop_junk (resolve_opaque_predicates bin fn_va false).2 fn_va (obfuscation_score bin fn_va ≥ 50) 4).2 fn_va {}
            false).1.bytes_changed) := rfl
    rw [hsum, full_pass_sites, List.length_append, List.length_append, ← hopq.reported, ← hjunk.reported, ← hdebug.reported]
    omega

/-- Whether a call that is no dry run is done, and how many bytes it says have changed. -/
def report (bin : binary_t) : op_t → Option (Bool × Nat)
  | .nop_junk fn_va aggressive nop_threshold =>
    let res := (nop_junk bin fn_va aggressive nop_threshold).1
    some (res.ok, res.bytes_changed)
  | .resolve_opaque_predicates fn_va dry_run =>
    let res := (resolve_opaque_predicates bin fn_va dry_run).1
    if dry_run then none else some (res.ok, res.bytes_changed)
  | .patch_anti_debug fn_va opts dry_run =>
    let res := (patch_anti_debug bin fn_va opts dry_run).1
    if dry_run then none else some (res.ok, res.bytes_changed)
  | .unpack_xor va size method key_hex =>
    let res := (unpack_xor bin va size method key_hex).1
    some (res.ok, res.bytes_changed)
  | .write_bytes va bytes =>
    let res := (write_bytes bin va bytes).1
    some (res.ok, res.bytes_changed)
  | .full_pass fn_va dry_run =>
    let res := (full_pass bin fn_va dry_run).1
    if dry_run then none else some (res.ok, res.bytes_changed)
  | .rebuild _ | .revert_all => none

/-- A call that is done says how many records it has appended. -/
def Accounted (bin : binary_t) (op : op_t) : Prop := ∀ n, report bin op = some (true, n) → Appends bin (apply bin op) n

/-- The addresses that a call writes to, a list for each hit of the calls that count their hits. -/
def patch_sites (bin : binary_t) : op_t → List (List UInt64)
  | .nop_junk fn_va aggressive nop_threshold => junk_sites aggressive nop_threshold (decode_fn bin fn_va 8192)
  | .resolve_opaque_predicates fn_va false => forced_sites (decode_fn bin fn_va 8192)
  | .patch_anti_debug fn_va opts false => (decode_fn bin fn_va 8192).flatMap (insn_sites opts bin)
  | .full_pass fn_va false => full_pass_sites bin fn_va
  | _ => []

/-- There are as many sites as addresses that have a byte of the file. -/
def Balanced (bin : binary_t) (sites : List (List UInt64)) : Prop := sites.flatten.countP (has_byte bin) = sites.length

theorem Counts.balanced_iff {bin bin' : binary_t} {sites : List (List UInt64)} {ok : Bool} {reported : Nat}
    (h : Counts bin sites ok reported bin') :
    (∀ n, some (ok, reported) = some (true, n) → Appends bin bin' n) ↔ Balanced bin sites := by
  cases ok with
  | true =>
    simp only [Option.some.injEq, Prod.mk.injEq, true_and, forall_eq']
    rw [h.grows.appends.unique, h.reported]
    exact eq_comm
  | false =>
    rw [h.failed rfl]
    exact iff_of_true (fun n hn => by simp at hn) rfl

/-- The count of changed bytes is right exactly if there is one byte for each site. -/
theorem accounted_iff (bin : binary_t) (op : op_t) : Accounted bin op ↔ Balanced bin (patch_sites bin op) := by
  have hsilent : ∀ {n : Nat}, none = some (true, n) → Appends bin (apply bin op) n := fun h => by cases h
  cases op with
  | nop_junk fn_va aggressive nop_threshold => exact (nop_junk_counts bin fn_va aggressive nop_threshold).balanced_iff
  | resolve_opaque_predicates fn_va dry_run =>
    cases dry_run with
    | true => exact iff_of_true (fun n => hsilent) rfl
    | false => exact (resolve_counts bin fn_va).balanced_iff
  | patch_anti_debug fn_va opts dry_run =>
    cases dry_run with
    | true => exact iff_of_true (fun n => hsilent) rfl
    | false => exact (patch_anti_debug_counts opts bin fn_va).balanced_iff
  | unpack_xor va size method key_hex =>
    refine iff_of_true (fun n hn => ?_) rfl
    obtain ⟨hok, rfl⟩ := Prod.mk.inj (Option.some.inj hn)
    obtain ⟨off, -, hunpacks⟩ | ⟨-, hfailed, -⟩ := unpack_xor_spec bin va size method key_hex
    · rw [apply, hunpacks.image, hunpacks.count]
      exact rewrite_region_appends
    · exact absurd (hok.symm.trans hfailed) (by decide)
  | write_bytes va bytes =>
    refine iff_of_true (fun n hn => ?_) rfl
    obtain ⟨hok, rfl⟩ := Prod.mk.inj (Option.some.inj hn)
    obtain ⟨off, -, -, -, hcount, himage⟩ | ⟨hfailed, -⟩ := write_bytes_spec bin va bytes
    · rw [apply, himage, hcount]
      exact @rewrite_region_appends (quiesce bin) va off bytes.length _
    · exact absurd (hok.symm.trans hfailed) (by decide)
  | full_pass fn_va dry_run =>
    cases dry_run with
    | true => exact iff_of_true (fun n => hsilent) rfl
    | false => exact (full_pass_counts bin fn_va).balanced_iff
  | rebuild fn_va => exact iff_of_true (fun n => hsilent) rfl
  | revert_all => exact iff_of_true (fun n => hsilent) rfl

/-- A jump, with dead code of two bytes behind it. -/
def dead_image : binary_t := apply sample_image (.write_bytes 0x400000 [0xEB, 5, 0x31, 0xC0])

/-- One byte is reported for the two that are written. -/
theorem dead_code_miscounted : ¬ ∀ bin op, Accounted bin op := by
  intro hcounts
  have hbalanced := (nop_junk_counts dead_image 0x400000 true 4).balanced_iff.mp (hcounts dead_image (.nop_junk 0x400000 true 4))
  have hsites : (junk_sites true 4 (decode_fn dead_image 0x400000 8192)).flatten.countP (has_byte dead_image) = 2 ∧
      (junk_sites true 4 (decode_fn dead_image 0x400000 8192)).length = 1 := by
    decide +kernel
  rw [Balanced, hsites.1, hsites.2] at hbalanced
  exact absurd hbalanced (by decide)

end slop.core.analysis.imgpatch
