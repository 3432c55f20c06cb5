import Mathlib.Algebra.Group.Nat.Defs
import ReverseSlop.Core.Disasm.FunctionIndex

namespace slop.core.disasm.function_index

variable {img : image_ref_t} {ranges : List exec_range_t} {rng : exec_range_t} {va start stop : UInt64}
  {fns : List function_t} {f : function_t}

theorem range_for_va_spec (hfind : range_for_va ranges va = some rng) :
    rng ∈ ranges ∧ rng.va.toNat ≤ va.toNat ∧ va.toNat < rng.va.toNat + rng.len.toNat ∧
      rng.va.toNat + rng.len.toNat < 2 ^ 64 := by
  have hmem := List.mem_of_find?_eq_some hfind
  have htest := List.find?_some hfind
  simp only [Bool.and_eq_true, decide_eq_true_eq, UInt64.le_iff_toNat_le, UInt64.lt_iff_toNat_lt, UInt64.toNat_add] at htest
  have hva := rng.va.toNat_lt
  have hlen := rng.len.toNat_lt
  exact ⟨hmem, by omega, by omega, by omega⟩

/-- A decoded instruction is inside the range. -/
theorem decode_spec {insn : insn_t} (hdecode : img.decode rng va = some insn) :
    0 < insn.length.toNat ∧ (va - rng.va).toNat + insn.length.toNat ≤ rng.len.toNat := by
  rw [image_ref_t.decode] at hdecode
  split at hdecode
  · cases hdecode
  case isFalse hoff =>
    obtain ⟨hpos, hle⟩ := img.fits _ _ _ hdecode
    have hoff : (va - rng.va).toNat < rng.len.toNat := by
      rw [ge_iff_le, UInt64.not_le, UInt64.lt_iff_toNat_lt] at hoff
      exact hoff
    have havail : (rng.len - (va - rng.va)).toNat = rng.len.toNat - (va - rng.va).toNat :=
      UInt64.toNat_sub_of_le _ _ (UInt64.le_iff_toNat_le.mpr hoff.le)
    rw [List.length_take, havail] at hle
    exact ⟨hpos, by omega⟩

theorem toNat_add_length (va : UInt64) (n : UInt8) (h : va.toNat + n.toNat < 2 ^ 64) :
    (va + n.toUInt64).toNat = va.toNat + n.toNat := by
  rw [UInt64.toNat_add, UInt8.toNat_toUInt64, Nat.mod_eq_of_lt h]

/-- The walk goes forward and stays in its range. -/
theorem walk_spec (img : image_ref_t) (ranges : List exec_range_t) (hrng : rng.va.toNat + rng.len.toNat < 2 ^ 64)
    (fuel : Nat) (worklist : List UInt64) (hlo : rng.va.toNat ≤ va.toNat) (hhi : va.toNat ≤ rng.va.toNat + rng.len.toNat) :
    va.toNat ≤ (walk img ranges rng fuel va worklist).1.toNat ∧
      (walk img ranges rng fuel va worklist).1.toNat ≤ rng.va.toNat + rng.len.toNat := by
  induction fuel generalizing va worklist with
  | zero => exact ⟨le_rfl, hhi⟩
  | succ fuel ih =>
    rw [walk]
    split
    · exact ⟨le_rfl, hhi⟩
    case h_2 insn hdecode =>
      obtain ⟨hpos, hend⟩ := decode_spec hdecode
      rw [UInt64.toNat_sub_of_le _ _ (UInt64.le_iff_toNat_le.mpr hlo)] at hend
      have hnext := toNat_add_length va insn.length (by omega)
      dsimp only
      split
      · exact ⟨hnext ▸ by omega, hnext ▸ by omega⟩
      · obtain ⟨h₁, h₂⟩ := @ih (va + insn.length.toUInt64) _ (by omega) (by omega)
        exact ⟨by omega, h₂⟩

/-- The extent is not empty, and it ends below the top of the address space. -/
def function_t.Ends (f : function_t) : Prop := 1 ≤ f.size.toNat ∧ f.va.toNat + f.size.toNat < 2 ^ 64

theorem Ends.of_lt (hlt : start.toNat < stop.toNat) : function_t.Ends ⟨start, stop - start⟩ := by
  have hstop := stop.toNat_lt
  have hsub := UInt64.toNat_sub_of_le _ _ (UInt64.le_iff_toNat_le.mpr hlt.le)
  simp only [function_t.Ends, hsub]
  omega

/-- The recorded ends are behind their starts. -/
def Recorded (pdata_end : List (UInt64 × UInt64)) : Prop := ∀ e ∈ pdata_end, e.1.toNat < e.2.toNat

theorem seeds_t.pdata_recorded {t : seeds_t} (ht : Recorded t.pdata_end) (rf : pe_runtime_func_t) :
    Recorded (t.pdata img ranges rf).pdata_end := by
  rw [seeds_t.pdata]
  split
  · exact ht
  dsimp only
  split
  · exact ht
  split
  · exact ht
  case isFalse hgt =>
    rw [UInt64.not_le, UInt64.lt_iff_toNat_lt] at hgt
    dsimp only
    split
    · intro e he
      rcases List.mem_cons.mp he with rfl | he
      · exact hgt
      · exact ht e (List.mem_filter.mp he).1
    · exact ht

theorem seed_recorded (img : image_ref_t) (ranges : List exec_range_t) : Recorded (seed img ranges).pdata_end := by
  have hfold : ∀ (rfs : List pe_runtime_func_t) (t : seeds_t), Recorded t.pdata_end →
      Recorded (rfs.foldl (seeds_t.pdata img ranges) t).pdata_end := by
    intro rfs
    induction rfs with
    | nil => exact fun t ht => ht
    | cons rf rfs ih => exact fun t ht => ih _ (seeds_t.pdata_recorded ht rf)
  exact hfold _ _ (by rintro e ⟨⟩)

theorem extent_size_ends {pdata_end : List (UInt64 × UInt64)} (hpdata : Recorded pdata_end)
    (hle : start.toNat ≤ stop.toNat) (hroom : start.toNat + 1 < 2 ^ 64) :
    function_t.Ends ⟨start, extent_size pdata_end start stop⟩ := by
  have hwalked : start.toNat + (stop - start).toNat < 2 ^ 64 := by
    rw [UInt64.toNat_sub_of_le _ _ (UInt64.le_iff_toNat_le.mpr hle)]
    have hstop := stop.toNat_lt
    omega
  have hsize : ∀ sz : UInt64, start.toNat + sz.toNat < 2 ^ 64 →
      function_t.Ends ⟨start, if sz = 0 then 1 else sz⟩ := by
    intro sz hsz
    split
    · exact ⟨le_rfl, hroom⟩
    case isFalse hne =>
      have hne : sz.toNat ≠ 0 := fun hzero => hne (UInt64.toNat_inj.mp hzero)
      exact ⟨Nat.one_le_iff_ne_zero.mpr hne, hsz⟩
  rw [extent_size]
  split
  case h_1 pdata_stop hlookup =>
    have hmem : (start, pdata_stop) ∈ pdata_end := by
      obtain ⟨before, after, rfl, -⟩ := List.lookup_eq_some_iff.mp hlookup
      exact List.mem_append_right _ List.mem_cons_self
    have hlt := hpdata _ hmem
    have hends := (Ends.of_lt hlt).2
    refine hsize _ ?_
    change start.toNat + (if stop - start ≤ pdata_stop - start then pdata_stop - start else stop - start).toNat < _
    split
    · exact hends
    · exact hwalked
  · exact hsize _ hwalked

def Ended (extent : List (UInt64 × UInt64)) : Prop := ∀ e ∈ extent, function_t.Ends ⟨e.1, e.2⟩

theorem descend_ended (img : image_ref_t) (ranges : List exec_range_t) {pdata_end : List (UInt64 × UInt64)}
    (hpdata : Recorded pdata_end) (n : Nat) (worklist : List UInt64) {t : descent_t} (ht : Ended t.extent) :
    Ended (descend img ranges pdata_end n worklist t).extent := by
  induction n generalizing worklist t with
  | zero => exact ht
  | succ n ih =>
    rw [descend]
    split
    · exact ht
    case h_2 start worklist _ =>
      dsimp only
      split
      · exact ih worklist ht
      case h_2 rng hfind =>
        obtain ⟨-, hlo, hhi, hrng⟩ := range_for_va_spec hfind
        obtain ⟨hle, -⟩ := walk_spec img ranges hrng rng.len.toNat worklist hlo hhi.le
        refine ih _ fun e he => ?_
        rcases List.mem_cons.mp he with rfl | he
        · exact extent_size_ends hpdata hle (by change start.toNat + 1 < _; omega)
        · exact ht e he

theorem unreached_ends {max_functions : Nat} {pdata_end extent : List (UInt64 × UInt64)} (hpdata : Recorded pdata_end)
    (hfns : ∀ f ∈ fns, f.Ends) : ∀ f ∈ (unreached max_functions pdata_end extent fns).2.1, f.Ends := by
  induction pdata_end generalizing extent fns with
  | nil => exact hfns
  | cons e pdata_end ih =>
    obtain ⟨hlt, hpdata⟩ := List.forall_mem_cons.mp hpdata
    rw [unreached]
    split
    · exact ih hpdata hfns
    split
    · exact hfns
    · exact ih hpdata (List.forall_mem_cons.mpr ⟨Ends.of_lt hlt, hfns⟩)

/-- The offset of the `ret` is not before the one of the start. -/
theorem find_ret_spec {steps : Nat} (hfind : find_ret img rng steps va = some stop) :
    (va - rng.va).toNat ≤ (stop - rng.va).toNat ∧ (stop - rng.va).toNat < rng.len.toNat := by
  induction steps generalizing va with
  | zero => cases hfind
  | succ steps ih =>
    rw [find_ret] at hfind
    split at hfind
    · cases hfind
    case h_2 insn hdecode =>
      obtain ⟨hpos, hend⟩ := decode_spec hdecode
      split at hfind
      · obtain rfl := Option.some.inj hfind
        exact ⟨le_rfl, by omega⟩
      · have hnext : (va + insn.length.toUInt64 - rng.va).toNat = (va - rng.va).toNat + insn.length.toNat := by
          have hlen := rng.len.toNat_lt
          rw [show va + insn.length.toUInt64 - rng.va = va - rng.va + insn.length.toUInt64 by grind]
          exact toNat_add_length _ _ (by omega)
        obtain ⟨hle, hlt⟩ := ih hfind
        exact ⟨by omega, hlt⟩

/-- A function of the sweep ends in its range, but that may go on at the bottom of the address space. -/
def Swept (rng : exec_range_t) (f : function_t) : Prop :=
  1 ≤ f.size.toNat ∧ ∃ off, f.va = rng.va + off.toUInt64 ∧ off + f.size.toNat ≤ rng.len.toNat

theorem candidate_swept {known : UInt64 → Bool} {off : Nat} (hoff : off < rng.len.toNat)
    (hcand : candidate img known rng off = some f) : Swept rng f := by
  rw [candidate] at hcand
  split at hcand
  · cases hcand
  split at hcand
  · cases hcand
  split at hcand
  · cases hcand
  obtain ⟨stop, hfind, rfl⟩ := Option.map_eq_some_iff.mp hcand
  have hlen := rng.len.toNat_lt
  have hstart : (rng.va + off.toUInt64 - rng.va).toNat = off := by
    rw [show rng.va + off.toUInt64 - rng.va = off.toUInt64 by grind]
    exact Nat.mod_eq_of_lt (by omega)
  obtain ⟨hle, hlt⟩ := find_ret_spec hfind
  have hsize : (stop + 1 - (rng.va + off.toUInt64)).toNat = (stop - rng.va).toNat - off + 1 := by
    have hback : (stop - rng.va - off.toUInt64).toNat = (stop - rng.va).toNat - off := by
      have hoff' : off.toUInt64.toNat = off := Nat.mod_eq_of_lt (by omega)
      rw [UInt64.toNat_sub_of_le _ _ (UInt64.le_iff_toNat_le.mpr (by omega)), hoff']
    rw [show stop + 1 - (rng.va + off.toUInt64) = stop - rng.va - off.toUInt64 + 1 by grind, UInt64.toNat_add, hback]
    exact Nat.mod_eq_of_lt (by change _ + 1 < _; omega)
  refine ⟨by rw [hsize]; omega, off, rfl, ?_⟩
  rw [hsize]
  omega

theorem sweep_range_mem {known : UInt64 → Bool} {offs : List Nat} (hoffs : ∀ off ∈ offs, off < rng.len.toNat)
    (hf : f ∈ (sweep_range img known rng offs fns).1) : f ∈ fns ∨ Swept rng f := by
  induction offs generalizing fns with
  | nil => exact Or.inl hf
  | cons off offs ih =>
    obtain ⟨hoff, hoffs⟩ := List.forall_mem_cons.mp hoffs
    rw [sweep_range] at hf
    split at hf
    · exact Or.inl hf
    · rcases ih hoffs hf with hf | hf
      · rcases List.mem_append.mp hf with hf | hf
        · exact Or.inr (candidate_swept hoff (Option.mem_toList.mp hf))
        · exact Or.inl hf
      · exact Or.inr hf

theorem sweep_mem {known : UInt64 → Bool} (hf : f ∈ (sweep img known ranges fns).1) :
    f ∈ fns ∨ ∃ rng ∈ ranges, Swept rng f := by
  induction ranges generalizing fns with
  | nil => exact Or.inl hf
  | cons rng ranges ih =>
    rw [sweep] at hf
    split at hf
    · exact Or.inl hf
    · rcases ih hf with hf | ⟨rng', hrng, hf⟩
      · refine (sweep_range_mem (fun off hoff => ?_) hf).imp_right fun hswept => ⟨rng, List.mem_cons_self, hswept⟩
        obtain ⟨hge, hlt⟩ := List.mem_range'_1.mp hoff
        omega
      · exact Or.inr ⟨rng', List.mem_cons_of_mem _ hrng, hf⟩

/-- The functions from before the sweep end below the top of the address space. -/
theorem unswept_ends (img : image_ref_t) (hash : hash_order_t) :
    let t := seed img (exec_ranges img)
    let d := descend img (exec_ranges img) t.pdata_end img.max_functions t.worklist {}
    ∀ f ∈ (unreached img.max_functions (hash.order t.pdata_end) d.extent
      (d.extent.map fun e => ⟨e.1, e.2⟩)).2.1, f.Ends := by
  have hdescent := descend_ended img (exec_ranges img) (seed_recorded img (exec_ranges img)) img.max_functions
    (seed img (exec_ranges img)).worklist (t := {}) (by rintro e ⟨⟩)
  have hrecorded : Recorded (hash.order (seed img (exec_ranges img)).pdata_end) :=
    fun e he => seed_recorded img (exec_ranges img) e ((hash.perm _).mem_iff.mp he)
  refine unreached_ends hrecorded fun g hg => ?_
  obtain ⟨e, he, rfl⟩ := List.mem_map.mp hg
  exact hdescent e he

/-- Only the sweep finds functions that do not end below the top of the address space. -/
theorem discover_mem {hash : hash_order_t} (hf : f ∈ (discover img hash).fns) :
    f.Ends ∨ ∃ rng ∈ exec_ranges img, Swept rng f := by
  rcases sweep_mem hf with hf | hswept
  · exact Or.inl (unswept_ends img hash f hf)
  · exact Or.inr hswept

theorem discover_size_pos {hash : hash_order_t} (hf : f ∈ (discover img hash).fns) : 1 ≤ f.size.toNat := by
  rcases discover_mem hf with hends | ⟨rng, -, hswept⟩
  · exact hends.1
  · exact hswept.1

end slop.core.disasm.function_index
