import Mathlib.Algebra.Order.BigOperators.Group.List
import ReverseSlop.Core.Disasm.PeImports

namespace slop.core.disasm

open Bytes (At le)

namespace pe_file_t

/-- What is listed of a function: its export under the last of its names. -/
def listed (f : pe_file_t) (e : function_t × Nat) : List pe_export_t :=
  if e.1.rva = 0 then [] else [f.entry e.1 e.2 ((f.names_of e.2).getLastD [])]

/-- The exports that are listed. -/
def last_exports (f : pe_file_t) : List pe_export_t := f.functions.zipIdx.flatMap f.listed

end pe_file_t

/-- Put names into the slots of their functions. -/
def set_names (slots : List (List UInt8)) (names : List (UInt16 × List UInt8)) : List (List UInt8) :=
  names.foldl (fun slots n => slots.set n.1.toNat n.2) slots

/-- A slot keeps the last name that is put into it. -/
theorem set_names_last {slots : List (List UInt8)} {names : List (UInt16 × List UInt8)} {k : Nat} {s : List UInt8}
    (hk : slots[k]? = some s) :
    (set_names slots names)[k]? = some (((names.filter fun n => n.1.toNat = k).map Prod.snd).getLastD s) := by
  induction names generalizing slots s with
  | nil => exact hk
  | cons n names ih =>
    by_cases hsame : n.1.toNat = k
    · have hset : (slots.set n.1.toNat n.2)[k]? = some n.2 := by
        rw [hsame]
        exact List.getElem?_set_self (List.getElem?_eq_some_iff.mp hk).1
      show (set_names (slots.set n.1.toNat n.2) names)[k]? = _
      rw [ih hset, List.filter_cons_of_pos (by simpa using hsame), List.map_cons, List.getLastD_cons]
    · have hset : (slots.set n.1.toNat n.2)[k]? = some s := by
        rw [List.getElem?_set_ne hsame]
        exact hk
      show (set_names (slots.set n.1.toNat n.2) names)[k]? = _
      rw [ih hset, List.filter_cons_of_neg (by simpa using hsame)]

section

variable {img : pe_image_t} {f : pe_file_t} {d : List UInt8} {n i : Nat} {names_off ords_off : Nat}

/-- The names from the `i`-th on are read, and put into their slots. -/
theorem read_names_at (h : img.Has f) (hnames : ∀ i (h : i < f.names.length), f.Name d names_off ords_off i f.names[i])
    {slots : List (List UInt8)} (hslots : slots.length = f.functions.length) (hn : i + n = f.names.length) :
    img.read_names d names_off ords_off n i slots = some (set_names slots (f.names.drop i)) := by
  induction n generalizing i slots with
  | zero =>
    rw [List.drop_of_length_le (by omega)]
    rfl
  | succ n ih =>
    have hi : i < f.names.length := by omega
    obtain ⟨hindex, hord, rva, off, hat, hbacked, htext⟩ := hnames i hi
    have hin := inside_of_at (by decide) hat
    have hin' := inside_of_at (by decide) hord
    rw [pe_image_t.read_names]
    simp only [rd16_at hord, rd32_at hat, Option.bind_eq_bind, Option.bind_some, h.rva_to_offset hbacked,
      read_cstring_at_text htext]
    rw [if_neg (by omega), if_pos (by omega), ih (by simpa using hslots) (by omega), List.drop_eq_getElem_cons hi]
    rfl

/-- Each function gets the last of its names. -/
theorem names_of_at (h : img.Has f) {names_rva ordinals_rva : UInt32}
    (hnames : ∀ i (h : i < f.names.length), f.Name d names_off ords_off i f.names[i])
    (hnames_at : f.names ≠ [] → Backed f.sections names_rva names_off)
    (hords_at : f.names ≠ [] → Backed f.sections ordinals_rva ords_off) :
    ∃ slots, img.names_of d names_rva ordinals_rva f.names.length f.functions.length = some slots ∧
      ∀ k < f.functions.length, slots[k]? = some ((f.names_of k).getLastD []) := by
  have hunnamed : ∀ k < f.functions.length, (List.replicate f.functions.length ([] : List UInt8))[k]? = some [] := by
    intro k hk
    exact List.getElem?_replicate_of_lt hk
  by_cases hnone : f.names = []
  · refine ⟨List.replicate f.functions.length [], ?_, ?_⟩
    · rw [pe_image_t.names_of, hnone]
      split <;> rfl
    · intro k hk
      rw [hunnamed k hk, pe_file_t.names_of, hnone]
      rfl
  · refine ⟨set_names (List.replicate f.functions.length []) f.names, ?_, fun k hk => set_names_last (hunnamed k hk)⟩
    rw [pe_image_t.names_of, h.rva_to_offset (hnames_at hnone), h.rva_to_offset (hords_at hnone)]
    exact read_names_at h hnames List.length_replicate (Nat.zero_add _)

/-- An address in the export directory is that of a forwarder. -/
theorem read_forwarder_at (h : img.Has f) {fn : function_t} {funcs_off : Nat}
    (hfn : f.Function d (img.dir 0) funcs_off i fn) :
    img.read_forwarder d fn.rva = some (fn.forwarder.isSome, fn.forwarder.getD []) := by
  obtain ⟨-, hforwarder⟩ := hfn
  rw [pe_image_t.read_forwarder]
  cases hf : fn.forwarder with
  | none =>
    rw [hf] at hforwarder
    rw [if_neg fun hin => hforwarder ⟨UInt32.le_iff_toNat_le.mp hin.1, hin.2⟩]
    rfl
  | some s =>
    rw [hf] at hforwarder
    obtain ⟨hin, off, hbacked, htext⟩ := hforwarder
    rw [if_pos ⟨UInt32.le_iff_toNat_le.mpr hin.1, hin.2⟩, h.rva_to_offset hbacked]
    simp only [read_cstring_at_text htext]
    rfl

/-- The functions from the `i`-th on are read. -/
theorem read_functions_at (h : img.Has f) {funcs_off : Nat} {slots : List (List UInt8)}
    (hfunctions : ∀ i (h : i < f.functions.length), f.Function d (img.dir 0) funcs_off i f.functions[i])
    (hslots : ∀ k < f.functions.length, slots[k]? = some ((f.names_of k).getLastD [])) (hn : i + n = f.functions.length) :
    img.read_functions d funcs_off f.ordinal_base slots n i = some (((f.functions.drop i).zipIdx i).flatMap f.listed) := by
  induction n generalizing i with
  | zero =>
    rw [List.drop_of_length_le (by omega)]
    rfl
  | succ n ih =>
    have hi : i < f.functions.length := by omega
    have hfn := hfunctions i hi
    have hin := inside_of_at (by decide) hfn.1
    have hrest := ih (i := i + 1) (by omega)
    rw [pe_image_t.read_functions, if_neg (by omega), rd32_at hfn.1, List.drop_eq_getElem_cons hi, List.zipIdx_cons,
      List.flatMap_cons, pe_file_t.listed]
    by_cases hzero : f.functions[i].rva = 0
    · simp only [hzero, Option.bind_eq_bind, Option.bind_some, if_true, List.nil_append]
      exact hrest
    · simp only [Option.bind_eq_bind, Option.bind_some, if_neg hzero, hslots i hi, read_forwarder_at h hfn, hrest]
      rfl

/-- The export directory is read. -/
theorem read_exports_at (h : img.Has f) {dir_off funcs_off : Nat} {funcs_rva names_rva ordinals_rva : UInt32}
    (htable : f.ExportTable d (img.dir 0) dir_off funcs_rva names_rva ordinals_rva funcs_off names_off ords_off) :
    img.read_exports d dir_off = some f.last_exports := by
  have htables := htable.tables
  simp only [Bytes.at_append, List.length_append, Bytes.length_le] at htables
  obtain ⟨⟨hfuncs, hnames⟩, hords⟩ := htables
  have hfunctions_le := htable.functions_le
  have hnames_le := htable.names_le
  have hcount : ∀ n : Nat, n ≤ 65536 → min n.toUInt32.toNat 65536 = n := by
    intro n hn
    rw [Nat.toUInt32_eq, UInt32.toNat_ofNat']
    omega
  obtain ⟨slots, hslots, hlast⟩ : ∃ slots,
    img.names_of d names_rva ordinals_rva f.names.length f.functions.length = some slots ∧ _ :=
      names_of_at h htable.names htable.names_at htable.ords_at
  rw [pe_image_t.read_exports, rd32_at htable.base, rd32_at_nat htable.num_funcs (by omega),
    rd32_at_nat htable.num_names (by omega), rd32_at hfuncs, rd32_at hnames, rd32_at hords]
  simp only [Option.bind_eq_bind, Option.bind_some, hcount _ hfunctions_le, hcount _ hnames_le, hslots]
  by_cases hnone : f.functions = []
  · have hnothing : f.last_exports = [] := by
      rw [pe_file_t.last_exports, hnone]
      rfl
    rw [hnothing, hnone]
    split <;> rfl
  · rw [h.rva_to_offset (htable.functions_at hnone)]
    exact read_functions_at h htable.functions hlast (Nat.zero_add _)

/-- The exports are those functions, each under the last of its names. -/
theorem exports_of_at (h : img.Has f) (hexports : f.Exports d (img.dir 0)) : img.exports_of d = some f.last_exports := by
  rw [pe_image_t.exports_of]
  rcases hexports with ⟨hnone, hfunctions⟩ | ⟨hrva, dir_off, hbacked, funcs_rva, names_rva, ordinals_rva, funcs_off, names_off,
    ords_off, htable⟩
  · rw [if_neg (fun hsome => hsome hnone), pe_file_t.last_exports, hfunctions]
    rfl
  · have hin := htable.tables.length_le (by simp [le])
    simp only [List.length_append, Bytes.length_le] at hin
    simp only [if_pos hrva, h.rva_to_offset hbacked]
    rw [if_pos (by omega)]
    exact read_exports_at h htable

/-- Functions without an address are not listed. -/
theorem read_functions_empty {funcs_off : Nat} {ordinal_base : UInt32} {slots : List (List UInt8)} {exports : List pe_export_t}
    (hread : img.read_functions d funcs_off ordinal_base slots n i = some exports) : exports = [] ↔
      ∀ j, i ≤ j → j < i + n → ∀ func_rva, rd32 d (funcs_off + j * 4) = some func_rva → func_rva = 0 := by
  induction n generalizing i exports with
  | zero =>
    cases hread
    exact iff_of_true rfl fun j hge hlt => by omega
  | succ n ih =>
    rw [pe_image_t.read_functions] at hread
    by_cases hin : funcs_off + i * 4 + 4 > d.length
    · rw [if_pos hin] at hread
      cases hread
      refine iff_of_true rfl fun j hge hlt func_rva hrva => ?_
      have hinside := rd32_isSome.mp (Option.isSome_of_mem hrva)
      omega
    · obtain ⟨func_rva, hrva⟩ := Option.isSome_iff_exists.mp (rd32_isSome.mpr (show funcs_off + i * 4 + 4 ≤ d.length by omega))
      simp only [if_neg hin, hrva, Option.bind_eq_bind, Option.bind_some] at hread
      by_cases hzero : func_rva = 0
      · rw [if_pos hzero] at hread
        rw [ih hread]
        constructor
        · intro hall j hge hlt
          rcases Nat.eq_or_lt_of_le hge with rfl | hmore
          · intro func_rva' hrva'
            rw [hrva] at hrva'
            cases hrva'
            exact hzero
          · exact hall j hmore (by omega)
        · exact fun hall j hge hlt => hall j (by omega) (by omega)
      · rw [if_neg hzero] at hread
        refine iff_of_false ?_ fun hall => hzero (hall i (Nat.le_refl _) (by omega) func_rva hrva)
        obtain ⟨name, -, hread⟩ := Option.bind_eq_some_iff.mp hread
        obtain ⟨forward, -, hread⟩ := Option.bind_eq_some_iff.mp hread
        obtain ⟨rest, -, hread⟩ := Option.bind_eq_some_iff.mp hread
        cases hread
        exact List.cons_ne_nil _ _

/-- An export table without functions that have an address. -/
theorem read_exports_empty (h : img.Has f) {dir_off : Nat} (hin : dir_off + 40 ≤ d.length) :
    ∃ exports, img.read_exports d dir_off = some exports ∧ (exports = [] ↔
      ¬ ∃ num_funcs funcs_rva funcs_off, rd32 d (dir_off + 20) = some num_funcs ∧ rd32 d (dir_off + 28) = some funcs_rva ∧
        f.offset funcs_rva = some funcs_off ∧
        ∃ i < min num_funcs.toNat 65536, ∃ func_rva, rd32 d (funcs_off + i * 4) = some func_rva ∧ func_rva ≠ 0) := by
  obtain ⟨base, hbase⟩ := Option.isSome_iff_exists.mp (rd32_isSome.mpr (show dir_off + 16 + 4 ≤ d.length by omega))
  obtain ⟨num_funcs, hcount⟩ := Option.isSome_iff_exists.mp (rd32_isSome.mpr (show dir_off + 20 + 4 ≤ d.length by omega))
  obtain ⟨num_names, hnum⟩ := Option.isSome_iff_exists.mp (rd32_isSome.mpr (show dir_off + 24 + 4 ≤ d.length by omega))
  obtain ⟨funcs_rva, hfuncs⟩ := Option.isSome_iff_exists.mp (rd32_isSome.mpr (show dir_off + 28 + 4 ≤ d.length by omega))
  obtain ⟨names_rva, hnames⟩ := Option.isSome_iff_exists.mp (rd32_isSome.mpr (show dir_off + 32 + 4 ≤ d.length by omega))
  obtain ⟨ordinals_rva, hords⟩ := Option.isSome_iff_exists.mp (rd32_isSome.mpr (show dir_off + 36 + 4 ≤ d.length by omega))
  rw [pe_image_t.read_exports]
  simp only [hbase, hcount, hnum, hfuncs, hnames, hords, Option.bind_eq_bind, Option.bind_some, h.offset funcs_rva]
  cases hoffset : f.offset funcs_rva with
  | none =>
    refine ⟨[], rfl, iff_of_true rfl ?_⟩
    rintro ⟨num_funcs', funcs_rva', funcs_off, -, hsame, hsome, -⟩
    cases hsame
    rw [hoffset] at hsome
    cases hsome
  | some funcs_off =>
    obtain ⟨slots, hslots, hlength⟩ : ∃ slots, img.names_of d names_rva ordinals_rva (min num_names.toNat 65536)
      (min num_funcs.toNat 65536) = some slots ∧ slots.length = min num_funcs.toNat 65536 := pe_image_t.names_of_length
    obtain ⟨exports, hexports⟩ := Option.isSome_iff_exists.mp
      (show (img.read_functions d funcs_off base slots (min num_funcs.toNat 65536) 0).isSome from
        pe_image_t.read_functions_isSome (by omega))
    refine ⟨exports, by simp only [hslots, Option.bind_some, hexports], ?_⟩
    rw [read_functions_empty hexports]
    constructor
    · rintro hall ⟨num_funcs', funcs_rva', funcs_off', hsame, hsame', hsome, i, hi, func_rva, hrva, hne⟩
      cases hsame
      cases hsame'
      rw [hoffset] at hsome
      cases hsome
      exact hne (hall i (Nat.zero_le _) (by omega) func_rva hrva)
    · intro hnone j _ hj func_rva hrva
      by_contra hne
      exact hnone ⟨num_funcs, funcs_rva, funcs_off, rfl, rfl, hoffset, j, by omega, func_rva, hrva, hne⟩

/-- What is read as exports of something else is nothing unless it leads to a function with an address. -/
theorem exports_of_stray (h : img.Has f) :
    ∃ exports, img.exports_of d = some exports ∧ (exports = [] ↔ ¬ f.StrayExports d (img.dir 0)) := by
  rw [pe_image_t.exports_of]
  by_cases hdir : (img.dir 0).rva ≠ 0
  · rw [if_pos hdir, h.offset]
    cases hoffset : f.offset (img.dir 0).rva with
    | none =>
      refine ⟨[], rfl, iff_of_true rfl ?_⟩
      rintro ⟨-, dir_off, hsome, -⟩
      rw [hoffset] at hsome
      cases hsome
    | some dir_off =>
      by_cases hin : dir_off + 40 ≤ d.length
      · obtain ⟨exports, hread, hempty⟩ := read_exports_empty h hin
        refine ⟨exports, by simp only [if_pos hin, hread], ?_⟩
        rw [hempty, not_iff_not]
        constructor
        · exact fun htable => ⟨hdir, dir_off, hoffset, hin, htable⟩
        · rintro ⟨-, dir_off', hsome, -, htable⟩
          rw [hoffset] at hsome
          cases hsome
          exact htable
      · refine ⟨[], by simp only [if_neg hin], iff_of_true rfl ?_⟩
        rintro ⟨-, dir_off', hsome, hin', -⟩
        rw [hoffset] at hsome
        cases hsome
        exact hin hin'
  · rw [if_neg hdir]
    exact ⟨[], rfl, iff_of_true rfl fun hstray => hdir hstray.1⟩

namespace pe_file_t

theorem listed_of_one {e : function_t × Nat} (hone : e.1.rva ≠ 0 → (f.names_of e.2).length ≤ 1) :
    f.listed e = f.described e := by
  rw [listed, described]
  by_cases hzero : e.1.rva = 0
  · rw [if_pos hzero, if_pos hzero]
  · have hlength := hone hzero
    rw [if_neg hzero, if_neg hzero]
    match f.names_of e.2, hlength with
    | [], _ => rfl
    | [_], _ => rfl

theorem length_listed {e : function_t × Nat} : (f.listed e).length ≤ (f.described e).length := by
  rw [listed, described]
  split
  · exact Nat.le_refl _
  · split
    · exact Nat.le_refl _
    · rename_i hne
      rw [List.length_singleton, List.length_map]
      exact List.length_pos_iff.mpr hne

theorem length_listed_lt {e : function_t × Nat} (hzero : e.1.rva ≠ 0) (hmore : 1 < (f.names_of e.2).length) :
    (f.listed e).length < (f.described e).length := by
  rw [listed, described, if_neg hzero, if_neg hzero]
  split
  · rename_i hnone
    rw [hnone] at hmore
    exact absurd hmore (by simp)
  · rw [List.length_map]
    exact hmore

/-- All exports are listed just when no function has two names. -/
theorem last_exports_perm : f.last_exports.Perm f.all_exports ↔ f.OneName := by
  constructor
  · intro hperm i hi hzero
    by_contra hmore
    have hlength := hperm.length_eq
    rw [last_exports, all_exports, List.length_flatMap, List.length_flatMap] at hlength
    have hmem : (f.functions[i], i) ∈ f.functions.zipIdx :=
      List.mem_zipIdx_iff_getElem?.mpr (List.getElem?_eq_getElem hi)
    exact Nat.ne_of_lt (List.sum_lt_sum _ _ (fun e _ => length_listed)
      ⟨_, hmem, length_listed_lt hzero (Nat.lt_of_not_le hmore)⟩) hlength
  · intro hone
    have hsame : f.last_exports = f.all_exports := by
      refine List.flatMap_congr fun e he => listed_of_one fun hzero => ?_
      obtain ⟨hi, hfn⟩ := List.getElem?_eq_some_iff.mp (List.mem_zipIdx_iff_getElem?.mp he)
      exact hone e.2 hi (hfn ▸ hzero)
    rw [hsame]

end pe_file_t

section

variable {exp imp : pe_data_dir_t} {e_lfanew opt_size num_dirs : Nat}

/-- The imports of a file, with the directory or without it. -/
theorem imports_of_described (hhas : img.Has f) (hheaders : f.Headers d exp imp e_lfanew opt_size num_dirs)
    (hslot : img.dir 1 = f.slot d e_lfanew opt_size 1) (himports : f.Imports d imp) :
    ∃ imports, img.imports_of d = some imports ∧
      (imports = f.all_imports ↔ (num_dirs ≤ 1 → ¬ f.StrayImports d (f.slot d e_lfanew opt_size 1))) := by
  by_cases hnum : 1 < num_dirs
  · rw [slot_of_directory hnum hheaders.size_ge hheaders.imp_dir] at hslot
    exact ⟨_, imports_of_at hhas (hslot ▸ himports), iff_of_true rfl fun hle => absurd hnum (Nat.not_lt.mpr hle)⟩
  · have hnone : imp = {} := by
      have hdir := hheaders.imp_dir
      rwa [pe_file_t.Directory, if_neg hnum] at hdir
    have hdlls : f.dlls = [] := by
      rcases himports with ⟨-, hdlls⟩ | ⟨hrva, -⟩
      · exact hdlls
      · exact absurd (congrArg pe_data_dir_t.rva hnone) hrva
    obtain ⟨imports, hread, hempty⟩ := imports_of_stray (d := d) hhas
    refine ⟨imports, hread, ?_⟩
    rw [pe_file_t.all_imports, hdlls, List.map_nil, hempty, hslot]
    exact ⟨fun hstray _ => hstray, fun hstray => hstray (Nat.not_lt.mp hnum)⟩

/-- The exports of a file, with the directory or without it. -/
theorem exports_of_described (hhas : img.Has f) (hheaders : f.Headers d exp imp e_lfanew opt_size num_dirs)
    (hslot : img.dir 0 = f.slot d e_lfanew opt_size 0) (hexports : f.Exports d exp) :
    ∃ exports, img.exports_of d = some exports ∧ (exports.Perm f.all_exports ↔
      f.OneName ∧ (num_dirs = 0 → ¬ f.StrayExports d (f.slot d e_lfanew opt_size 0))) := by
  by_cases hnum : 0 < num_dirs
  · rw [slot_of_directory hnum hheaders.size_ge hheaders.exp_dir] at hslot
    refine ⟨_, exports_of_at hhas (hslot ▸ hexports), ?_⟩
    rw [pe_file_t.last_exports_perm]
    exact ⟨fun hone => ⟨hone, fun hzero => absurd hnum (by omega)⟩, And.left⟩
  · have hnone : exp = {} := by
      have hdir := hheaders.exp_dir
      rwa [pe_file_t.Directory, if_neg hnum] at hdir
    have hfunctions : f.functions = [] := by
      rcases hexports with ⟨-, hfunctions⟩ | ⟨hrva, -⟩
      · exact hfunctions
      · exact absurd (congrArg pe_data_dir_t.rva hnone) hrva
    have hone : f.OneName := by
      intro i hi
      rw [hfunctions] at hi
      exact absurd hi (Nat.not_lt_zero i)
    obtain ⟨exports, hread, hempty⟩ := exports_of_stray (d := d) hhas
    refine ⟨exports, hread, ?_⟩
    rw [pe_file_t.all_exports, hfunctions, List.zipIdx_nil, List.flatMap_nil, List.perm_nil, hempty, hslot]
    exact ⟨fun hstray => ⟨hone, fun _ => hstray⟩, fun hstray => hstray.2 (by omega)⟩

/-- What is read of a file: its headers, and tables that are those of its directories where it has these. -/
theorem pe_parse_at (h : f.Describes d e_lfanew opt_size num_dirs) : ∃ img imports exports,
    pe_parse d = some img ∧ img.imports = imports ∧ img.exports = exports ∧
      (imports = f.all_imports ↔ (num_dirs ≤ 1 → ¬ f.StrayImports d (f.slot d e_lfanew opt_size 1))) ∧
      (exports.Perm f.all_exports ↔ f.OneName ∧ (num_dirs = 0 → ¬ f.StrayExports d (f.slot d e_lfanew opt_size 0))) := by
  obtain ⟨hmapped, exp, imp, hheaders, himports, hexports⟩ := h
  obtain ⟨img, hread, hok, hplus, hsections, hslots⟩ := read_headers_at hheaders
  have hhas : img.Has f := ⟨hplus, hsections, hmapped⟩
  obtain ⟨runtime_funcs, hfuncs⟩ := Option.isSome_iff_exists.mp (show (img.runtime_funcs_of d).isSome from
    pe_image_t.runtime_funcs_of_isSome)
  obtain ⟨imports, hreadImports, himports⟩ := imports_of_described hhas hheaders (hslots 1 (by decide)) himports
  obtain ⟨exports, hreadExports, hexports⟩ := exports_of_described hhas hheaders (hslots 0 (by decide)) hexports
  refine ⟨{ img with imports, exports, runtime_funcs }, imports, exports, ?_, rfl, rfl, himports, hexports⟩
  rw [pe_parse, hread]
  simp only [Option.bind_eq_bind, Option.bind_some, hok, hreadImports, hreadExports, hfuncs]
  rfl

/-- The imports and the exports are those that the file describes just when no function has two names, and where the
optional header has no directory, what is in its place leads nowhere. -/
theorem pe_tables_complete_iff (h : f.Describes d e_lfanew opt_size num_dirs) :
    (∃ img, pe_parse d = some img ∧ img.imports = f.all_imports ∧ img.exports.Perm f.all_exports) ↔
      f.Legible d e_lfanew opt_size num_dirs := by
  obtain ⟨img, imports, exports, hparse, rfl, rfl, himports, hexports⟩ := pe_parse_at h
  constructor
  · rintro ⟨img', himg', himports', hexports'⟩
    rw [hparse] at himg'
    cases himg'
    obtain ⟨hone, hstray⟩ := hexports.mp hexports'
    exact ⟨hone, hstray, himports.mp himports'⟩
  · rintro ⟨hone, hstray, hstray'⟩
    exact ⟨img, hparse, himports.mpr hstray', hexports.mpr ⟨hone, hstray⟩⟩

end

end

/-- The section of the sample. -/
def sample_section : pe_section_t where
  name := [0x2E, 0x72, 0, 0, 0, 0, 0, 0]
  rva := 0x1000
  virtual_size := 0x200
  raw_offset := 240
  raw_size := 136
  characteristics := 0x40000040

/-- A file that imports `f` and the ordinal 5 of `k`, and exports two functions: `a` is the name of the first one, and
`b` that of the one that is given. -/
def sample (named : Fin 2) : pe_file_t where
  pe32plus := false
  sections := [sample_section]
  dlls := [⟨[0x6B], 0x1078, [.name [0x66], .ordinal 5]⟩]
  ordinal_base := 1
  functions := [⟨0x1100, none⟩, ⟨0x1110, none⟩]
  names := [(0, [0x61]), (named.val.toUInt16, [0x62])]

/-- The bytes of the sample: its headers, and its section from 240 on. -/
def sample_bytes (named : Fin 2) : List UInt8 :=
  List.flatten [
    [0x4D, 0x5A], List.replicate 58 0, le 4 64,
    le 4 pe_signature, le 2 0x14C, le 2 1, List.replicate 12 0, le 2 112, [0, 0],
    le 2 0x10B, List.replicate 90 0, le 4 2, le 4 0x1000, le 4 40, le 4 0x1040, le 4 40,
    sample_section.name, le 4 0x200, le 4 0x1000, le 4 136, le 4 240, List.replicate 12 0, le 4 0x40000040,
    List.replicate 16 0, le 4 1, le 4 2, le 4 2, le 4 0x1028, le 4 0x1030, le 4 0x1038,
    le 4 0x1100, le 4 0x1110, le 4 0x103C, le 4 0x103E, le 2 0, le 2 named.val, [0x61, 0, 0x62, 0],
    le 4 0x106C, List.replicate 8 0, le 4 0x1068, le 4 0x1078, List.replicate 20 0, [0x6B, 0, 0, 0],
    le 4 0x1084, le 4 0x80000005, le 4 0, List.replicate 12 0, [0, 0, 0x66, 0]]

theorem sample_backed {named : Fin 2} {rva : UInt32} {off : Nat} (hge : 0x1000 ≤ rva.toNat) (hlt : rva.toNat < 0x1088)
    (hoff : off = 240 + (rva.toNat - 0x1000)) : Backed (sample named).sections rva off :=
  ⟨sample_section, List.mem_cons_self, hge, Nat.lt_trans hlt (by decide), hlt, hoff⟩

theorem sample_headers (named : Fin 2) :
    (sample named).Headers (sample_bytes named) ⟨0x1000, 40⟩ ⟨0x1040, 40⟩ 64 112 2 := by
  constructor <;> revert named
  case sections =>
    intro named i hi
    obtain rfl : i = 0 := Nat.lt_one_iff.mp hi
    refine ⟨rfl, ?_, ?_⟩ <;> revert named <;> decide
  case exp_dir | imp_dir =>
    intro named
    rw [pe_file_t.Directory, if_pos (by decide)]
    revert named
    decide
  all_goals decide +kernel

theorem sample_thunks (named : Fin 2) : (sample named).Thunks (sample_bytes named) 348 [.name [0x66], .ordinal 5] := by
  refine ⟨⟨0x1084, 372, by decide, by decide, ?_, sample_backed (by decide) (by decide) rfl, by decide, ?_, by decide,
    by decide⟩, ?_, ?_⟩
  all_goals
    show At (sample_bytes named) _ _
    revert named
    decide

theorem sample_imports (named : Fin 2) : (sample named).Imports (sample_bytes named) ⟨0x1040, 40⟩ := by
  refine Or.inr ⟨by decide, by decide, Nat.le_of_ble_eq_true rfl, 304, sample_backed (by decide) (by decide) rfl,
    ⟨0x106C, 0x1068, 344, 348, ?_, ?_, ?_, by decide, by decide, sample_backed (by decide) (by decide) rfl,
      ⟨?_, by decide, by decide⟩, sample_backed (by decide) (by decide) rfl, by decide, sample_thunks named⟩, ?_⟩
  all_goals
    show At (sample_bytes named) _ _
    revert named
    decide

theorem sample_exports (named : Fin 2) : (sample named).Exports (sample_bytes named) ⟨0x1000, 40⟩ := by
  refine Or.inr ⟨by decide, 240, sample_backed (by decide) (by decide) rfl, 0x1028, 0x1030, 0x1038, 280, 288, 296, ?_⟩
  constructor
  case functions_at | names_at | ords_at => exact fun _ => sample_backed (by decide) (by decide) rfl
  case functions =>
    intro i hi
    obtain rfl | rfl : i = 0 ∨ i = 1 := by
      have hlt : i < 2 := hi
      omega
    · refine ⟨?_, show ¬ (_ ∧ (0x1100 : UInt32).toNat < (0x1000 : UInt32).toNat + (40 : UInt32).toNat) from ?_⟩
      · revert named
        decide
      · exact fun hin => absurd hin.2 (by decide)
    · refine ⟨?_, show ¬ (_ ∧ (0x1110 : UInt32).toNat < (0x1000 : UInt32).toNat + (40 : UInt32).toNat) from ?_⟩
      · revert named
        decide
      · exact fun hin => absurd hin.2 (by decide)
  case names =>
    intro i hi
    obtain rfl | rfl : i = 0 ∨ i = 1 := by
      have hlt : i < 2 := hi
      omega
    · refine ⟨?_, ?_, 0x103C, 300, ?_, sample_backed (by decide) (by decide) rfl, ?_, ?_, ?_⟩ <;> revert named <;>
        decide
    · refine ⟨?_, ?_, 0x103E, 302, ?_, sample_backed (by decide) (by decide) rfl, ?_, ?_, ?_⟩ <;> revert named <;>
        decide
  all_goals revert named; decide

theorem sample_describes (named : Fin 2) : (sample named).Describes (sample_bytes named) 64 112 2 := by
  refine ⟨⟨List.pairwise_singleton _ _, ?_⟩, _, _, sample_headers named, sample_imports named, sample_exports named⟩
  intro s hs
  rw [List.mem_singleton.mp hs]
  decide

/-- The sample whose two functions have a name each. -/
theorem sample_is_complete : ∃ img, pe_parse (sample_bytes 1) = some img ∧ img.imports = (sample 1).all_imports ∧
    img.exports.Perm (sample 1).all_exports := by
  refine (pe_tables_complete_iff (sample_describes 1)).mpr ⟨?_, by simp, by simp⟩
  intro i hi _
  obtain rfl | rfl : i = 0 ∨ i = 1 := by
    have hlt : i < 2 := hi
    omega
  · decide
  · decide

/-- Of a function with two names the first one is lost. -/
theorem second_name_replaces_first :
    ¬ ∀ (d : List UInt8) (f : pe_file_t) (e_lfanew opt_size num_dirs : Nat), f.Describes d e_lfanew opt_size num_dirs →
      ∃ img, pe_parse d = some img ∧ img.imports = f.all_imports ∧ img.exports.Perm f.all_exports := by
  intro hlaw
  obtain ⟨img, hparse, -, hperm⟩ := hlaw _ _ _ _ _ (sample_describes 0)
  obtain ⟨img', imports, exports, hparse', -, rfl, -, hexports⟩ := pe_parse_at (sample_describes 0)
  rw [hparse] at hparse'
  cases hparse'
  exact absurd ((hexports.mp hperm).1 0 (by decide) (by decide)) (by decide)

end slop.core.disasm
