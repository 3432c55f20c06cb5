import ReverseSlop.Core.Disasm.FunctionExtents

namespace slop.core.disasm.function_index

open Extents (unique_by last_le last_le_eq_some pairwise_unique_by mem_of_mem_unique_by mem_unique_by_of_find?
  pairwise_mergeSort_of_nodup)

/-- The address is in the extent, which does not go on at the bottom of the address space. -/
def function_t.Contains (f : function_t) (va : UInt64) : Prop :=
  f.va.toNat ≤ va.toNat ∧ va.toNat < f.va.toNat + f.size.toNat

/-- Ascending functions with extents that are apart, and the lookup finds the extent of an address. -/
structure Represented (fns : List function_t) : Prop where
  ascending : fns.Pairwise fun f g => f.va.toNat < g.va.toNat
  size_pos : ∀ f ∈ fns, 1 ≤ f.size.toNat
  apart : fns.Pairwise fun f g => f.va.toNat + f.size.toNat ≤ g.va.toNat
  lookup : ∀ va start, containing fns va = some start ↔ ∃ f ∈ fns, f.Contains va ∧ f.va = start

variable {img : image_ref_t} {hash : hash_order_t} {fns : List function_t} {f g : function_t}

def Highest (fns : List function_t) (f : function_t) : Prop := f ∈ fns ∧ ∀ g ∈ fns, g.va.toNat ≤ f.va.toNat

theorem Represented.nil : Represented [] :=
  ⟨List.Pairwise.nil, by rintro f ⟨⟩, List.Pairwise.nil, by simp [containing, last_le]⟩

theorem end_le (hasc : fns.Pairwise fun f g => f.va.toNat < g.va.toNat)
    (hapart : fns.Pairwise fun f g => f.va.toNat + f.size.toNat ≤ g.va.toNat) (hf : f ∈ fns) (hg : g ∈ fns)
    (hlt : f.va.toNat < g.va.toNat) : f.va.toNat + f.size.toNat ≤ g.va.toNat := by
  have hforward := hapart.imp fun {f g} hle (_ : f.va.toNat < g.va.toNat) => hle
  have hback : fns.Pairwise (flip fun f g => f.va.toNat < g.va.toNat → f.va.toNat + f.size.toNat ≤ g.va.toNat) :=
    hasc.imp fun hfg hgf => absurd hgf hfg.not_gt
  exact List.Pairwise.forall_of_forall_of_flip (fun _ _ hself => absurd hself (lt_irrefl _)) hforward hback hf hg hlt

theorem containing_eq_some (hasc : fns.Pairwise fun f g => f.va.toNat < g.va.toNat)
    (hapart : fns.Pairwise fun f g => f.va.toNat + f.size.toNat ≤ g.va.toNat) (hends : ∀ f ∈ fns, f.Ends) (va start : UInt64) :
    containing fns va = some start ↔ ∃ f ∈ fns, f.Contains va ∧ f.va = start := by
  have hend : ∀ f ∈ fns, va < f.va + f.size ↔ va.toNat < f.va.toNat + f.size.toNat := by
    intro f hf
    rw [UInt64.lt_iff_toNat_lt, UInt64.toNat_add, Nat.mod_eq_of_lt (hends f hf).2]
  rw [containing]
  constructor
  · intro hcontaining
    split at hcontaining
    · cases hcontaining
    case h_2 f hlast =>
      obtain ⟨hmem, hle, -⟩ := (last_le_eq_some hasc).mp hlast
      split at hcontaining
      case isTrue hlt => exact ⟨f, hmem, ⟨hle, (hend f hmem).mp hlt⟩, Option.some.inj hcontaining⟩
      · cases hcontaining
  · rintro ⟨f, hmem, ⟨hle, hlt⟩, rfl⟩
    have hlast : last_le (fun f => f.va.toNat) va.toNat fns = some f := by
      refine (last_le_eq_some hasc).mpr ⟨hmem, hle, fun g hg hgle => ?_⟩
      by_contra hgt
      have hapart := end_le hasc hapart hmem hg (by omega)
      omega
    rw [hlast]
    exact if_pos ((hend f hmem).mpr hlt)

theorem clip_va (fns : List function_t) : (clip fns).map function_t.va = fns.map function_t.va := by
  fun_induction clip fns with
  | case1 => rfl
  | case2 => rfl
  | case3 f g fns ih => rw [List.map_cons, ih, List.map_cons, List.map_cons, List.map_cons]

theorem highest_cons {h : function_t} (hg : g ∈ fns) (hlt : f.va.toNat < g.va.toNat) :
    Highest (f :: fns) h ↔ Highest fns h := by
  constructor
  · rintro ⟨hmem, hmax⟩
    have hgh := hmax g (List.mem_cons_of_mem _ hg)
    rcases List.mem_cons.mp hmem with rfl | hmem
    · omega
    · exact ⟨hmem, fun k hk => hmax k (List.mem_cons_of_mem _ hk)⟩
  · rintro ⟨hmem, hmax⟩
    have hgh := hmax g hg
    exact ⟨List.mem_cons_of_mem _ hmem, List.forall_mem_cons.mpr ⟨by omega, hmax⟩⟩

theorem mem_clip_va (hf : f ∈ clip fns) : ∃ g ∈ fns, g.va = f.va := by
  have hva := List.mem_map_of_mem (f := function_t.va) hf
  rw [clip_va] at hva
  exact List.mem_map.mp hva

theorem pairwise_clip (hasc : fns.Pairwise fun f g => f.va.toNat < g.va.toNat) :
    (clip fns).Pairwise fun f g => f.va.toNat < g.va.toNat := by
  rw [← List.pairwise_map (f := function_t.va) (R := fun a b => a.toNat < b.toNat)] at hasc ⊢
  rwa [clip_va]

/-- A clipped extent is not empty and ends at the next start. -/
theorem clip_head (hlt : f.va.toNat < g.va.toNat) (hf : 1 ≤ f.size.toNat) :
    1 ≤ (min f.size (g.va - f.va)).toNat ∧ f.va.toNat + (min f.size (g.va - f.va)).toNat ≤ g.va.toNat := by
  have hsub := UInt64.toNat_sub_of_le _ _ (UInt64.le_iff_toNat_le.mpr hlt.le)
  change 1 ≤ (if f.size ≤ g.va - f.va then f.size else g.va - f.va).toNat ∧
    f.va.toNat + (if f.size ≤ g.va - f.va then f.size else g.va - f.va).toNat ≤ g.va.toNat
  split
  case isTrue hle =>
    rw [UInt64.le_iff_toNat_le] at hle
    omega
  · omega

theorem clip_spec (hasc : fns.Pairwise fun f g => f.va.toNat < g.va.toNat) (hsize : ∀ f ∈ fns, 1 ≤ f.size.toNat) :
    (∀ f ∈ clip fns, 1 ≤ f.size.toNat) ∧
      (clip fns).Pairwise (fun f g => f.va.toNat + f.size.toNat ≤ g.va.toNat) ∧
      ∀ f, Highest (clip fns) f ↔ Highest fns f := by
  fun_induction clip fns with
  | case1 => exact ⟨hsize, List.Pairwise.nil, fun f => Iff.rfl⟩
  | case2 f => exact ⟨hsize, List.pairwise_singleton _ _, fun f => Iff.rfl⟩
  | case3 f g fns ih =>
    obtain ⟨hfirst, hasc⟩ := List.pairwise_cons.mp hasc
    obtain ⟨hf, hsize⟩ := List.forall_mem_cons.mp hsize
    obtain ⟨hpos, hapart, hhighest⟩ := ih hasc hsize
    obtain ⟨hmin, hnext⟩ := clip_head (hfirst g List.mem_cons_self) hf
    have hle : ∀ h ∈ clip (g :: fns), g.va.toNat ≤ h.va.toNat := by
      intro h hh
      obtain ⟨h', hh', hva⟩ := mem_clip_va hh
      rw [← hva]
      rcases List.mem_cons.mp hh' with rfl | hh'
      · exact le_rfl
      · exact ((List.pairwise_cons.mp hasc).1 h' hh').le
    refine ⟨List.forall_mem_cons.mpr ⟨hmin, hpos⟩, List.pairwise_cons.mpr ⟨fun h hh => hnext.trans (hle h hh), hapart⟩,
      fun h => ?_⟩
    have hg : g.va ∈ (clip (g :: fns)).map function_t.va := by
      rw [clip_va]
      exact List.mem_cons_self
    obtain ⟨g', hg', hva⟩ := List.mem_map.mp hg
    have hlt := hfirst g List.mem_cons_self
    rw [highest_cons hg' (by rw [hva]; exact hlt), highest_cons List.mem_cons_self hlt]
    exact hhighest h

/-- After the clipping only the last extent can reach the top of the address space. -/
theorem clip_ends (hasc : fns.Pairwise fun f g => f.va.toNat < g.va.toNat) (hsize : ∀ f ∈ fns, 1 ≤ f.size.toNat)
    (hlast : ∀ f, Highest fns f → f.va.toNat + f.size.toNat < 2 ^ 64) : ∀ f ∈ clip fns, f.Ends := by
  obtain ⟨hpos, hapart, hhighest⟩ := clip_spec hasc hsize
  intro f hf
  refine ⟨hpos f hf, ?_⟩
  by_cases hmax : ∀ g ∈ clip fns, g.va.toNat ≤ f.va.toNat
  · exact hlast f ((hhighest f).mp ⟨hf, hmax⟩)
  · push Not at hmax
    obtain ⟨g, hg, hlt⟩ := hmax
    have hle := end_le (pairwise_clip hasc) hapart hf hg hlt
    exact hle.trans_lt g.va.toNat_lt

theorem represented_clip_iff (hasc : fns.Pairwise fun f g => f.va.toNat < g.va.toNat)
    (hsize : ∀ f ∈ fns, 1 ≤ f.size.toNat) :
    Represented (clip fns) ↔ ∀ f, Highest fns f → f.va.toNat + f.size.toNat < 2 ^ 64 := by
  obtain ⟨hpos, hapart, hhighest⟩ := clip_spec hasc hsize
  constructor
  · intro hrep f hmax
    by_contra hover
    have hf := ((hhighest f).mpr hmax).1
    have hlookup := (hrep.lookup f.va f.va).mpr ⟨f, hf, ⟨le_rfl, by have := hpos f hf; omega⟩, rfl⟩
    have hlast : last_le (fun f => f.va.toNat) f.va.toNat (clip fns) = some f :=
      (last_le_eq_some (pairwise_clip hasc)).mpr ⟨hf, le_rfl, fun g _ hle => hle⟩
    -- the end of the extent is computed as an address below its start
    have hwrap : ¬ f.va < f.va + f.size := by
      rw [UInt64.lt_iff_toNat_lt, UInt64.toNat_add]
      have hva := f.va.toNat_lt
      have hsz := f.size.toNat_lt
      omega
    simp [containing, hlast, hwrap] at hlookup
  · intro hlast
    exact ⟨pairwise_clip hasc, hpos, hapart,
      containing_eq_some (pairwise_clip hasc) hapart (clip_ends hasc hsize hlast)⟩

/-- The sort and the removal of duplicates. -/
def sort_t.ordered (lib : sort_t) (fns : List function_t) : List function_t := unique_by (fun f => f.va.toNat) (lib.sort fns)

theorem mem_of_mem_ordered {lib : sort_t} (hf : f ∈ lib.ordered fns) : f ∈ fns :=
  (lib.perm fns).mem_iff.mp (mem_of_mem_unique_by hf)

theorem ordered_ascending (lib : sort_t) (fns : List function_t) :
    (lib.ordered fns).Pairwise fun f g => f.va.toNat < g.va.toNat := pairwise_unique_by (lib.sorted fns)

/-- A start keeps the first of its functions. -/
theorem exists_first (lib : sort_t) (hf : f ∈ fns) :
    ∃ g ∈ lib.ordered fns, (lib.sort fns).find? (fun g => g.va.toNat = f.va.toNat) = some g := by
  have hfound : ((lib.sort fns).find? fun g => g.va.toNat = f.va.toNat).isSome :=
    List.find?_isSome.mpr ⟨f, (lib.perm fns).mem_iff.mpr hf, decide_eq_true rfl⟩
  obtain ⟨g, hg⟩ := Option.isSome_iff_exists.mp hfound
  exact ⟨g, mem_unique_by_of_find? (lib.sorted fns) hg, hg⟩

theorem highest_ordered (lib : sort_t) : Highest (lib.ordered fns) f ↔ f ∈ lib.ordered fns ∧ Highest fns f := by
  constructor
  · rintro ⟨hf, hmax⟩
    refine ⟨hf, mem_of_mem_ordered hf, fun g hg => ?_⟩
    obtain ⟨h, hh, hfind⟩ := exists_first lib hg
    have hsame := List.find?_some hfind
    exact of_decide_eq_true hsame ▸ hmax h hh
  · rintro ⟨hf, -, hmax⟩
    exact ⟨hf, fun g hg => hmax g (mem_of_mem_ordered hg)⟩

/-- The longer of two functions with one start is first. -/
def longest_first (f g : function_t) : Bool :=
  f.va.toNat < g.va.toNat || (f.va.toNat == g.va.toNat && g.size.toNat ≤ f.size.toNat)

theorem longest_first_iff : longest_first f g ↔
    f.va.toNat < g.va.toNat ∨ f.va.toNat = g.va.toNat ∧ g.size.toNat ≤ f.size.toNat := by
  simp [longest_first]

theorem pairwise_longest_first (fns : List function_t) :
    (fns.mergeSort longest_first).Pairwise fun f g => longest_first f g := by
  apply List.pairwise_mergeSort
  · intro f g h
    rw [longest_first_iff, longest_first_iff, longest_first_iff]
    omega
  · intro f g
    rw [Bool.or_eq_true, longest_first_iff, longest_first_iff]
    omega

def sort_longest_first : sort_t where
  sort fns := fns.mergeSort longest_first
  perm fns := List.mergeSort_perm fns _
  sorted fns := (pairwise_longest_first fns).imp fun hfg => by
    rw [longest_first_iff] at hfg
    omega

/-- The function kept for a start is the longest one. -/
theorem size_le_of_first (hf : f ∈ fns)
    (hfind : (sort_longest_first.sort fns).find? (fun g => g.va.toNat = f.va.toNat) = some g) :
    g.va.toNat = f.va.toNat ∧ f.size.toNat ≤ g.size.toNat := by
  obtain ⟨hva, before, after, hsplit, hbefore⟩ := List.find?_eq_some_iff_append.mp hfind
  have hva : g.va.toNat = f.va.toNat := of_decide_eq_true hva
  have hsorted := pairwise_longest_first fns
  have hf : f ∈ before ++ g :: after := hsplit ▸ (sort_longest_first.perm fns).mem_iff.mpr hf
  change sort_longest_first.sort fns |>.Pairwise _ at hsorted
  rw [hsplit] at hsorted
  refine ⟨hva, ?_⟩
  rcases List.mem_append.mp hf with hf | hf
  · have hother := hbefore f hf
    simp at hother
  rcases List.mem_cons.mp hf with rfl | hf
  · exact le_rfl
  · have hle := (List.pairwise_cons.mp (List.pairwise_append.mp hsorted).2.1).1 f hf
    rw [longest_first_iff] at hle
    omega

/-- The image is one that is searched for functions. -/
def image_ref_t.Searched (img : image_ref_t) : Prop := img.pe.ok ∧ img.eng_ok ∧ exec_ranges img ≠ []

theorem build_eq (img : image_ref_t) (hash : hash_order_t) (lib : sort_t) :
    (img.Searched ∧ (build img hash lib).2.fns = clip (lib.ordered (discover img hash).fns)) ∨
      (¬ img.Searched ∧ (build img hash lib).2.fns = []) := by
  rw [build, image_ref_t.Searched]
  cases img.pe.ok <;> cases img.eng_ok <;> cases exec_ranges img <;> simp [sort_t.ordered]

theorem represented_ordered_iff (img : image_ref_t) (hash : hash_order_t) (lib : sort_t) :
    Represented (clip (lib.ordered (discover img hash).fns)) ↔
      ∀ f ∈ lib.ordered (discover img hash).fns, Highest (discover img hash).fns f → f.va.toNat + f.size.toNat < 2 ^ 64 := by
  rw [represented_clip_iff (ordered_ascending lib _) fun f hf => discover_size_pos (mem_of_mem_ordered hf)]
  simp only [highest_ordered, and_imp]

/-- In an image with its code below the top of the address space the index is right. -/
theorem build_represented (hcode : ∀ rng ∈ exec_ranges img, rng.va.toNat + rng.len.toNat < 2 ^ 64) (lib : sort_t) :
    Represented (build img hash lib).2.fns := by
  rcases build_eq img hash lib with ⟨-, hfns⟩ | ⟨-, hfns⟩
  · rw [hfns, represented_ordered_iff]
    rintro f - ⟨hf, -⟩
    rcases discover_mem hf with hends | ⟨rng, hrng, -, off, hva, hend⟩
    · exact hends.2
    · have hbelow := hcode rng hrng
      have hoff : off.toUInt64.toNat = off := Nat.mod_eq_of_lt (by omega)
      rw [hva, UInt64.toNat_add, hoff]
      exact (Nat.add_le_add_right (Nat.mod_le _ _) _).trans_lt (by omega)
  · rw [hfns]
    exact Represented.nil

/-- The index is right exactly if none of the functions found at the highest address reaches the top of the
address space: the end of its extent is computed as an address. -/
theorem build_represented_iff (img : image_ref_t) (hash : hash_order_t) :
    (∀ lib : sort_t, Represented (build img hash lib).2.fns) ↔
      (img.Searched → ∀ f, Highest (discover img hash).fns f → f.va.toNat + f.size.toNat < 2 ^ 64) := by
  constructor
  · intro hrep hsearched f hmax
    have hrep := hrep sort_longest_first
    rcases build_eq img hash sort_longest_first with ⟨-, hfns⟩ | ⟨hnot, -⟩
    · rw [hfns, represented_ordered_iff] at hrep
      obtain ⟨g, hg, hfind⟩ := exists_first sort_longest_first hmax.1
      obtain ⟨hva, hsize⟩ := size_le_of_first hmax.1 hfind
      have hend := hrep g hg ⟨mem_of_mem_ordered hg, fun h hh => hva ▸ hmax.2 h hh⟩
      omega
    · exact absurd hsearched hnot
  · intro hends lib
    rcases build_eq img hash lib with ⟨hsearched, hfns⟩ | ⟨-, hfns⟩
    · rw [hfns, represented_ordered_iff]
      exact fun f _ hmax => hends hsearched f hmax
    · rw [hfns]
      exact Represented.nil

/-- An image at the end of the address space: padding, a prologue and the `ret` in its last byte. -/
def last_page : image_ref_t where
  pe := { ok := true, sections := [{ rva := 0xFF0, virtual_size := 16, raw_size := 16, characteristics := 0x20000000 }] }
  file := [0xCC, 0x48, 0x83, 0xEC, 0x20] ++ List.replicate 10 0x90 ++ [0xC3]
  base := 0xFFFFFFFFFFFFF000
  eng.decode va buf :=
    match buf with
    | 0x48 :: 0x83 :: 0xEC :: _ :: _ => some { va, length := 4 }
    | 0xC3 :: _ => some { va, length := 1, flow := .ret }
    | _ :: _ => some { va, length := 1 }
    | [] => none
  fits va buf insn hdecode := by
    dsimp only at hdecode
    split at hdecode <;> cases hdecode <;> simp

/-- The function of the last page is in the index, but the lookup does not find it at its own start. -/
theorem last_page_not_represented : ¬ ∀ (img : image_ref_t) (hash : hash_order_t) (lib : sort_t),
    Represented (build img hash lib).2.fns := by
  intro hrep
  have hrep := hrep last_page ⟨id, fun l => List.Perm.refl l⟩ sort_longest_first
  have hfns : (build last_page ⟨id, fun l => List.Perm.refl l⟩ sort_longest_first).2.fns = [⟨0xFFFFFFFFFFFFFFF1, 15⟩] := by
    decide +kernel
  rw [hfns] at hrep
  have hlookup := (hrep.lookup 0xFFFFFFFFFFFFFFF1 0xFFFFFFFFFFFFFFF1).mpr
    ⟨⟨0xFFFFFFFFFFFFFFF1, 15⟩, by decide, ⟨by decide, by decide⟩, rfl⟩
  exact absurd hlookup (by decide)

end slop.core.disasm.function_index
