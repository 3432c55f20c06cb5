import ReverseSlop.Core.Disasm.FunctionLookup

namespace slop.core.disasm.function_index

/-- What is known when the sweep begins. -/
structure known_t where
  claimed : List UInt64
  extent : List (UInt64 × UInt64)
  fns : List function_t

def known (img : image_ref_t) (hash : hash_order_t) : known_t :=
  let ranges := exec_ranges img
  let t := seed img ranges
  let d := descend img ranges t.pdata_end img.max_functions t.worklist {}
  let found := unreached img.max_functions (hash.order t.pdata_end) d.extent (d.extent.map fun e => ⟨e.1, e.2⟩)
  { claimed := d.claimed, extent := found.1, fns := found.2.1 }

/-- The sweep passes over an address. -/
def known_t.knows (k : known_t) (va : UInt64) : Bool := decide (va ∈ k.claimed) || is_covered k.extent va

/-- An offset of a range. -/
structure place_t where
  rng : exec_range_t
  off : Nat

def place_t.va (p : place_t) : UInt64 := p.rng.va + p.off.toUInt64

/-- The function that the sweep finds at a place. -/
def place_t.found (img : image_ref_t) (k : known_t) (p : place_t) : Option function_t :=
  candidate img k.knows p.rng p.off

def exec_range_t.places (rng : exec_range_t) : List place_t :=
  (List.range' 1 (rng.len.toNat - 2)).map fun off => ⟨rng, off⟩

/-- The sweep comes to a place while there is room for a function. -/
def Visits (img : image_ref_t) (k : known_t) (p : place_t) : Prop :=
  ∃ before after, (exec_ranges img).flatMap exec_range_t.places = before ++ p :: after ∧
    (before.filterMap (place_t.found img k)).length < img.max_functions - k.fns.length

/-- The place looks like the start of a function that is not claimed. -/
def place_t.Promising (img : image_ref_t) (k : known_t) (p : place_t) : Prop :=
  let bytes := (img.file.drop p.rng.file_off).take p.rng.len.toNat
  good_preceding_boundary (bytes.getD (p.off - 1) 0) ∧ looks_like_prologue (bytes.drop p.off) ∧ p.va ∉ k.claimed

/-- The functions of the sweep start outside of the extents that are known, and have all of the `ret` at which they end. -/
def RespectsKnown (img : image_ref_t) (k : known_t) : Prop :=
  ∀ p f, Visits img k p → p.found img k = some f →
    (∀ g ∈ k.fns, ¬ g.Contains f.va) ∧
      ∃ va insn, find_ret img p.rng 2048 f.va = some va ∧ img.decode p.rng va = some insn ∧
        insn.length.toNat ≤ (f.va + f.size - va).toNat

/-- The function is the one that starts last of those that do not start behind the address. -/
def Nearest (fns : List function_t) (va : UInt64) (f : function_t) : Prop :=
  f ∈ fns ∧ f.va.toNat ≤ va.toNat ∧ ∀ g ∈ fns, g.va.toNat ≤ va.toNat → g.va.toNat ≤ f.va.toNat

/-- Where the sweep comes to a promising place with a `ret` behind it, the nearest extent has the place, or no extent
has it and the `ret` is one byte long. -/
def NearestDecides (img : image_ref_t) (k : known_t) : Prop :=
  ∀ p va insn, Visits img k p → p.Promising img k →
    find_ret img p.rng 2048 p.va = some va → img.decode p.rng va = some insn →
    (∃ g, Nearest k.fns p.va g ∧ g.Contains p.va) ∨ ((∀ g ∈ k.fns, ¬ g.Contains p.va) ∧ insn.length = 1)

section

variable {img : image_ref_t} {hash : hash_order_t} {k : known_t} {fns : List function_t} {ranges : List exec_range_t}
  {rng : exec_range_t} {f : function_t} {p : place_t} {va : UInt64} {extent : List (UInt64 × UInt64)}

/-- A range adds what is found in it, until there is no room. -/
theorem sweep_range_eq (offs : List Nat) :
    (sweep_range img k.knows rng offs fns).1 =
      (((offs.map fun off => place_t.mk rng off).filterMap (place_t.found img k)).take
        (img.max_functions - fns.length)).reverse ++ fns := by
  induction offs generalizing fns with
  | nil => simp [sweep_range]
  | cons off offs ih =>
    rw [sweep_range, List.map_cons]
    split
    · rename_i hfull
      rw [Nat.sub_eq_zero_of_le hfull]
      rfl
    rename_i hroom
    rw [ih]
    cases hfound : candidate img k.knows rng off with
    | none => rw [List.filterMap_cons_none (by exact hfound)]; rfl
    | some f =>
      have hleft : img.max_functions - fns.length = (img.max_functions - (fns.length + 1)) + 1 := by omega
      rw [List.filterMap_cons_some (by exact hfound), hleft, List.take_succ_cons, List.reverse_cons, List.append_assoc,
        Option.toList_some, List.singleton_append, List.length_cons]

theorem sweep_eq (ranges : List exec_range_t) :
    (sweep img k.knows ranges fns).1 =
      (((ranges.flatMap exec_range_t.places).filterMap (place_t.found img k)).take
        (img.max_functions - fns.length)).reverse ++ fns := by
  induction ranges generalizing fns with
  | nil => simp [sweep]
  | cons rng ranges ih =>
    rw [sweep, List.flatMap_cons, List.filterMap_append]
    split
    · rename_i hfull
      rw [Nat.sub_eq_zero_of_le hfull]
      rfl
    rename_i hroom
    dsimp only
    rw [ih, sweep_range_eq, ← exec_range_t.places]
    rw [List.take_append, List.reverse_append, List.append_assoc, List.length_append, List.length_reverse, List.length_take]
    congr 3
    omega

theorem discover_fns (img : image_ref_t) (hash : hash_order_t) :
    (discover img hash).fns =
      ((((exec_ranges img).flatMap exec_range_t.places).filterMap (place_t.found img (known img hash))).take
        (img.max_functions - (known img hash).fns.length)).reverse ++ (known img hash).fns :=
  sweep_eq (k := known img hash) (exec_ranges img)

theorem mem_take_filterMap {α β : Type} {g : α → Option β} {b : β} {l : List α} {n : Nat} :
    b ∈ (l.filterMap g).take n ↔
      ∃ a before after, l = before ++ a :: after ∧ (before.filterMap g).length < n ∧ g a = some b := by
  constructor
  · intro hb
    induction l generalizing n with
    | nil => simp at hb
    | cons a l ih =>
      cases ha : g a with
      | none =>
        rw [List.filterMap_cons_none ha] at hb
        obtain ⟨c, before, after, rfl, hlt, hc⟩ := ih hb
        exact ⟨c, a :: before, after, rfl, by rwa [List.filterMap_cons_none ha], hc⟩
      | some b' =>
        rw [List.filterMap_cons_some ha] at hb
        cases n with
        | zero => cases hb
        | succ n =>
          rw [List.take_succ_cons] at hb
          rcases List.mem_cons.mp hb with rfl | hb
          · exact ⟨a, [], l, rfl, Nat.succ_pos n, ha⟩
          · obtain ⟨c, before, after, rfl, hlt, hc⟩ := ih hb
            refine ⟨c, a :: before, after, rfl, ?_, hc⟩
            rw [List.filterMap_cons_some ha, List.length_cons]
            omega
  · rintro ⟨a, before, after, rfl, hlt, ha⟩
    obtain ⟨room, hroom⟩ := Nat.exists_eq_succ_of_ne_zero (Nat.sub_ne_zero_of_lt hlt)
    rw [List.filterMap_append, List.filterMap_cons_some ha, List.take_append, hroom, List.take_succ_cons]
    exact List.mem_append_right _ List.mem_cons_self

theorem mem_discover : f ∈ (discover img hash).fns ↔
    f ∈ (known img hash).fns ∨ ∃ p, Visits img (known img hash) p ∧ p.found img (known img hash) = some f := by
  rw [discover_fns, List.mem_append, List.mem_reverse, mem_take_filterMap, or_comm]
  refine or_congr Iff.rfl ⟨?_, ?_⟩
  · rintro ⟨p, before, after, hplaces, hroom, hfound⟩
    exact ⟨p, ⟨before, after, hplaces, hroom⟩, hfound⟩
  · rintro ⟨p, ⟨before, after, hplaces, hroom⟩, hfound⟩
    exact ⟨p, before, after, hplaces, hroom, hfound⟩

/-- The extents have distinct starts, which are claimed. -/
def Starts (t : descent_t) : Prop := (t.extent.map Prod.fst).Nodup ∧ ∀ e ∈ t.extent, e.1 ∈ t.claimed

theorem descend_starts (img : image_ref_t) (ranges : List exec_range_t) (pdata_end : List (UInt64 × UInt64)) (n : Nat)
    (worklist : List UInt64) {t : descent_t} (ht : Starts t) : Starts (descend img ranges pdata_end n worklist t) := by
  induction n generalizing worklist t with
  | zero => exact ht
  | succ n ih =>
    rw [descend]
    split
    · exact ht
    case h_2 _ start later hnext =>
      obtain ⟨hnodup, hclaimed⟩ := ht
      have hnew : start ∉ t.claimed := by
        have hhead := List.head?_dropWhile_not (fun va => decide (va ∈ t.claimed)) worklist
        rw [hnext] at hhead
        exact of_decide_eq_false hhead
      dsimp only
      split
      · exact ih later ⟨hnodup, fun e he => List.mem_cons_of_mem _ (hclaimed e he)⟩
      · refine ih _ ⟨List.nodup_cons.mpr ⟨fun hmem => ?_, hnodup⟩, List.forall_mem_cons.mpr ⟨List.mem_cons_self, ?_⟩⟩
        · obtain ⟨e, he, rfl⟩ := List.mem_map.mp hmem
          exact hnew (hclaimed e he)
        · exact fun e he => List.mem_cons_of_mem _ (hclaimed e he)

def function_of (e : UInt64 × UInt64) : function_t := ⟨e.1, e.2⟩

/-- The recorded functions are added to the extents and to the functions. -/
theorem unreached_starts (max_functions : Nat) (pdata_end : List (UInt64 × UInt64)) (hnodup : (extent.map Prod.fst).Nodup) :
    let found := unreached max_functions pdata_end extent (extent.map function_of)
    (found.1.map Prod.fst).Nodup ∧ found.2.1 = found.1.map function_of := by
  induction pdata_end generalizing extent with
  | nil => exact ⟨hnodup, rfl⟩
  | cons e pdata_end ih =>
    obtain ⟨start, stop⟩ := e
    rw [unreached]
    split
    · exact ih hnodup
    rename_i hnew
    split
    · exact ⟨hnodup, rfl⟩
    · refine @ih ((start, stop - start) :: extent) (List.nodup_cons.mpr ⟨fun hmem => hnew ?_, hnodup⟩)
      obtain ⟨e, he, hstart⟩ := List.mem_map.mp hmem
      exact List.any_eq_true.mpr ⟨e, he, decide_eq_true hstart⟩

theorem known_starts (img : image_ref_t) (hash : hash_order_t) :
    ((known img hash).extent.map Prod.fst).Nodup ∧ (known img hash).fns = (known img hash).extent.map function_of :=
  unreached_starts _ _ (descend_starts (t := {}) img _ _ _ _ ⟨List.nodup_nil, by rintro e ⟨⟩⟩).1

theorem known_ended (img : image_ref_t) (hash : hash_order_t) : ∀ f ∈ (known img hash).fns, f.Ends := unswept_ends img hash

/-- The binary search finds the nearest extent. -/
theorem is_covered_iff (hnodup : (extent.map Prod.fst).Nodup) (hends : ∀ f ∈ extent.map function_of, f.Ends) :
    is_covered extent va ↔ ∃ f, Nearest (extent.map function_of) va f ∧ f.Contains va := by
  rw [is_covered]
  set ends := extent.map fun e => (e.1, e.1 + e.2)
  have hmem : ∀ e, e ∈ (ends.mergeSort fun a b => a.1 ≤ b.1) ↔ ∃ x ∈ extent, (x.1, x.1 + x.2) = e := by
    intro e
    rw [(List.mergeSort_perm ends _).mem_iff, List.mem_map]
  have hend : ∀ x ∈ extent, ∀ va : UInt64, va < x.1 + x.2 ↔ va.toNat < x.1.toNat + x.2.toNat := by
    intro x hx va
    have hbelow : x.1.toNat + x.2.toNat < 2 ^ 64 := (hends (function_of x) (List.mem_map_of_mem hx)).2
    rw [UInt64.lt_iff_toNat_lt, UInt64.toNat_add, Nat.mod_eq_of_lt hbelow]
  have hasc : (ends.mergeSort fun a b => a.1 ≤ b.1).Pairwise fun a b => a.1.toNat < b.1.toNat := by
    apply Extents.pairwise_mergeSort_of_nodup fun e : UInt64 × UInt64 => e.1.toNat
    · intro a b
      rw [decide_eq_true_iff, UInt64.le_iff_toNat_le]
    · have hstarts : ends.map (fun e => e.1.toNat) = (extent.map Prod.fst).map UInt64.toNat := by
        simp [ends, Function.comp_def]
      rw [hstarts]
      exact hnodup.map fun a b hsame => UInt64.toNat_inj.mp hsame
  rw [Option.any_eq_true]
  constructor
  · rintro ⟨e, hlast, hlt⟩
    obtain ⟨he, hle, hmax⟩ := (Extents.last_le_eq_some hasc).mp hlast
    obtain ⟨x, hx, rfl⟩ := (hmem e).mp he
    refine ⟨function_of x, ⟨List.mem_map_of_mem hx, hle, fun g hg hgle => ?_⟩, hle, (hend x hx va).mp (of_decide_eq_true hlt)⟩
    obtain ⟨y, hy, rfl⟩ := List.mem_map.mp hg
    exact hmax (y.1, y.1 + y.2) ((hmem _).mpr ⟨y, hy, rfl⟩) hgle
  · rintro ⟨f, ⟨hf, hle, hmax⟩, -, hlt⟩
    obtain ⟨x, hx, rfl⟩ := List.mem_map.mp hf
    refine ⟨(x.1, x.1 + x.2), (Extents.last_le_eq_some hasc).mpr ⟨(hmem _).mpr ⟨x, hx, rfl⟩, hle, fun e he hele => ?_⟩,
      decide_eq_true ((hend x hx va).mpr hlt)⟩
    obtain ⟨y, hy, rfl⟩ := (hmem e).mp he
    exact hmax _ (List.mem_map_of_mem hy) hele

theorem found_eq_some : p.found img k = some f ↔
    p.Promising img k ∧ ¬ is_covered k.extent p.va ∧
      ∃ va, find_ret img p.rng 2048 p.va = some va ∧ f = ⟨p.va, va + 1 - p.va⟩ := by
  rw [place_t.found, candidate, place_t.Promising, ← place_t.va, known_t.knows]
  split
  case isTrue hboundary => simp_all
  split
  case isTrue hprologue => simp_all
  rename_i hboundary hprologue
  simp only [Bool.not_eq_true', Bool.not_eq_false] at hboundary hprologue
  split
  case isTrue hknown =>
    rw [Bool.or_eq_true, decide_eq_true_iff] at hknown
    refine iff_of_false (fun hnone => by cases hnone) ?_
    rintro ⟨⟨-, -, hclaimed⟩, hcovered, -⟩
    exact hknown.elim hclaimed hcovered
  case isFalse hknown =>
    rw [Bool.or_eq_true, decide_eq_true_iff, not_or] at hknown
    rw [Option.map_eq_some_iff]
    constructor
    · rintro ⟨va, hfind, rfl⟩
      exact ⟨⟨hboundary, hprologue, hknown.1⟩, hknown.2, va, hfind, rfl⟩
    · rintro ⟨-, -, va, hfind, rfl⟩
      exact ⟨va, hfind, rfl⟩

theorem find_ret_decode {steps : Nat} {stop : UInt64} (hfind : find_ret img rng steps va = some stop) :
    ∃ insn, img.decode rng stop = some insn := by
  induction steps generalizing va with
  | zero => cases hfind
  | succ steps ih =>
    rw [find_ret] at hfind
    split at hfind
    · cases hfind
    case h_2 insn hdecode =>
      split at hfind
      · obtain rfl := Option.some.inj hfind
        exact ⟨insn, hdecode⟩
      · exact ih hfind

/-- The sweep starts no function in a known extent and cuts no `ret` exactly if the nearest extent always decides. -/
theorem sweep_respects_known (img : image_ref_t) (hash : hash_order_t) :
    (∀ f, f ∈ (discover img hash).fns ↔
        f ∈ (known img hash).fns ∨ ∃ p, Visits img (known img hash) p ∧ p.found img (known img hash) = some f) ∧
      (RespectsKnown img (known img hash) ↔ NearestDecides img (known img hash)) := by
  obtain ⟨hnodup, hfns⟩ := known_starts img hash
  have hends := known_ended img hash
  rw [hfns] at hends
  have hcovered : ∀ va, is_covered (known img hash).extent va ↔ ∃ g, Nearest (known img hash).fns va g ∧ g.Contains va := by
    rw [hfns]
    exact fun va => is_covered_iff hnodup hends
  refine ⟨fun f => mem_discover, fun hrespects p va insn hvisits hpromising hfind hdecode => ?_,
    fun hdecides p f hvisits hfound => ?_⟩
  · by_cases hnear : ∃ g, Nearest (known img hash).fns p.va g ∧ g.Contains p.va
    · exact Or.inl hnear
    · right
      have hfound := found_eq_some.mpr ⟨hpromising, (hcovered p.va).not.mpr hnear, va, hfind, rfl⟩
      obtain ⟨hoff, va', insn', hfind', hdecode', hlen⟩ := hrespects p _ hvisits hfound
      obtain rfl : va = va' := Option.some.inj (hfind.symm.trans hfind')
      obtain rfl : insn = insn' := Option.some.inj (hdecode.symm.trans hdecode')
      dsimp only at hlen
      rw [show p.va + (va + 1 - p.va) - va = 1 by grind] at hlen
      have hpos := (decode_spec hdecode).1
      exact ⟨hoff, UInt8.toNat_inj.mp (le_antisymm hlen hpos)⟩
  · obtain ⟨hpromising, huncovered, va, hfind, rfl⟩ := found_eq_some.mp hfound
    obtain ⟨insn, hdecode⟩ := find_ret_decode hfind
    rcases hdecides p va insn hvisits hpromising hfind hdecode with hnear | ⟨hoff, hone⟩
    · exact absurd ((hcovered p.va).mpr hnear) huncovered
    · refine ⟨hoff, va, insn, hfind, hdecode, ?_⟩
      dsimp only
      rw [hone, show p.va + (va + 1 - p.va) - va = 1 by grind]
      exact le_rfl

/-- An entry point of one byte, and behind it a function that pops its arguments with its `ret`. -/
def popping_image : image_ref_t where
  pe :=
    { ok := true
      entry_rva := 0x1000
      sections := [{ rva := 0x1000, virtual_size := 16, raw_size := 16, characteristics := 0x20000000 }] }
  file := [0xC3, 0x48, 0x83, 0xEC, 0x28, 0xC2, 0x08, 0x00] ++ List.replicate 8 0xCC
  base := 0x140000000
  eng.decode va buf :=
    match buf with
    | 0x48 :: 0x83 :: 0xEC :: _ :: _ => some { va, length := 4 }
    | 0xC2 :: _ :: _ :: _ => some { va, length := 3, flow := .ret }
    | 0xC3 :: _ => some { va, length := 1, flow := .ret }
    | _ :: _ => some { va, length := 1 }
    | [] => none
  fits va buf insn hdecode := by
    dsimp only at hdecode
    split at hdecode <;> cases hdecode <;> simp

/-- Of the last instruction of the function only the first byte is in its extent. -/
theorem popping_image_cuts_ret : ¬ ∀ (img : image_ref_t) (hash : hash_order_t), RespectsKnown img (known img hash) := by
  intro hrespects
  have hrespects := hrespects popping_image ⟨id, fun l => List.Perm.refl l⟩
  set k := known popping_image ⟨id, fun l => List.Perm.refl l⟩ with hk
  let p : place_t := ⟨⟨0x140001000, 0, 16⟩, 1⟩
  have hvisits : Visits popping_image k p := ⟨[], _, rfl, by decide +kernel⟩
  have hfound : p.found popping_image k = some ⟨0x140001001, 5⟩ := by
    rw [hk]
    decide +kernel
  obtain ⟨-, va, insn, hfind, hdecode, hlen⟩ := hrespects p _ hvisits hfound
  have hret : find_ret popping_image p.rng 2048 0x140001001 = some 0x140001005 := by decide +kernel
  obtain rfl := Option.some.inj (hret.symm.trans hfind)
  have hlength : (popping_image.decode p.rng 0x140001005).map insn_t.length = some 3 := by decide +kernel
  rw [hdecode] at hlength
  rw [Option.some.inj hlength] at hlen
  exact absurd hlen (by decide)

end

end slop.core.disasm.function_index
