import ReverseSlop.Core.Disasm.PeTables

namespace slop.core.disasm

open Bytes (At le)

/-- A bit of a number is tested by its power of two. -/
theorem and_two_pow_eq_zero {n i : Nat} : n &&& 2 ^ i = 0 ↔ n.testBit i = false := by
  constructor
  · intro hzero
    have hbit : (n &&& 2 ^ i).testBit i = false := by rw [hzero, Nat.zero_testBit]
    simpa [Nat.testBit_and] using hbit
  · intro hbit
    refine Nat.eq_of_testBit_eq fun j => ?_
    by_cases hj : i = j
    · simp [Nat.testBit_and, ← hj, hbit]
    · simp [Nat.testBit_and, hj]

/-- An image has the word size and the sections of a file. -/
structure pe_image_t.Has (img : pe_image_t) (f : pe_file_t) : Prop where
  pe32plus : img.pe32plus = f.pe32plus
  sections : img.sections = f.sections
  mapped : f.Mapped

section

variable {img : pe_image_t} {f : pe_file_t} {d : List UInt8} {off n v : Nat}

theorem pe_image_t.Has.rva_to_offset (h : img.Has f) {rva : UInt32} (hbacked : Backed f.sections rva off) :
    img.rva_to_offset rva = some off :=
  rva_to_offset_backed h.sections h.mapped hbacked

theorem pe_image_t.Has.offset (h : img.Has f) (rva : UInt32) : img.rva_to_offset rva = f.offset rva := by
  rw [pe_file_t.offset, pe_image_t.rva_to_offset, pe_image_t.rva_to_offset, h.sections]

theorem pe_image_t.Has.thunk_size (h : img.Has f) : img.thunk_size = f.word := by
  rw [pe_image_t.thunk_size, pe_file_t.word, h.pe32plus]

theorem word_pos : 0 < f.word := by
  rw [pe_file_t.word]
  split <;> decide

/-- The highest bit of a thunk. -/
theorem pe_image_t.Has.ordinal_flag (h : img.Has f) : img.ordinal_flag.toNat = 2 ^ (8 * f.word - 1) := by
  rw [pe_image_t.ordinal_flag, pe_file_t.word, h.pe32plus]
  split <;> rfl

theorem half_word : 256 ^ f.word / 2 = 2 ^ (8 * f.word - 1) := by
  rw [pe_file_t.word]
  split <;> rfl

theorem pe_image_t.Has.read_thunk (h : img.Has f) (hat : At d off (le f.word v)) (hv : v < 256 ^ f.word) :
    img.read_thunk d off = some v.toUInt64 ∧ v.toUInt64.toNat = v := by
  have hplus := h.pe32plus
  rw [pe_file_t.word] at hat hv
  rw [pe_image_t.read_thunk]
  cases hword : f.pe32plus with
  | true =>
    rw [hword, if_pos rfl] at hat hv
    rw [hplus, hword, if_pos rfl, rd64_at_nat hat hv]
    refine ⟨rfl, ?_⟩
    rw [Nat.toUInt64_eq, UInt64.toNat_ofNat']
    omega
  | false =>
    rw [hword, if_neg (by simp)] at hat hv
    rw [hplus, hword, if_neg (by simp), rd32_at_nat hat hv]
    have hnat : v.toUInt64.toNat = v := by
      rw [Nat.toUInt64_eq, UInt64.toNat_ofNat']
      omega
    refine ⟨?_, hnat⟩
    rw [Option.map_some, Option.some.injEq, ← UInt64.toNat_inj, hnat, UInt32.toNat_toUInt64, Nat.toUInt32_eq,
      UInt32.toNat_ofNat']
    omega

theorem inside_of_at {k : Nat} (hk : 0 < k) (hat : At d off (le k v)) : off + k ≤ d.length := by
  have hin := hat.length_le (by
    rw [← List.length_pos_iff, Bytes.length_le]
    exact hk)
  rwa [Bytes.length_le] at hin

/-- An ordinal has the highest bit, and a name has not. -/
theorem pe_image_t.Has.flag_of_ordinal (h : img.Has f) {m : UInt16} {thunk : UInt64}
    (hthunk : thunk.toNat = 256 ^ f.word / 2 + m.toNat) :
    thunk &&& img.ordinal_flag ≠ 0 ∧ (thunk &&& 0xFFFF).toUInt16 = m := by
  have hm := m.toNat_lt
  have hword : f.word = 8 ∨ f.word = 4 := by
    rw [pe_file_t.word]
    split <;> simp
  refine ⟨fun hzero => ?_, ?_⟩
  · rw [← UInt64.toNat_inj, UInt64.toNat_and, h.ordinal_flag, hthunk, half_word] at hzero
    rw [UInt64.toNat_zero, and_two_pow_eq_zero, Nat.testBit_two_pow_add_eq] at hzero
    have hlow : m.toNat.testBit (8 * f.word - 1) = false := by
      refine Nat.testBit_lt_two_pow (Nat.lt_of_lt_of_le hm (Nat.pow_le_pow_right (by decide) ?_))
      omega
    rw [hlow] at hzero
    cases hzero
  · have hmask : (0xFFFF : UInt64).toNat = 2 ^ 16 - 1 := rfl
    rw [← UInt16.toNat_inj, UInt64.toNat_toUInt16, UInt64.toNat_and, hmask, Nat.and_two_pow_sub_one_eq_mod, hthunk]
    rcases hword with hword | hword
    · rw [hword]
      omega
    · rw [hword]
      omega

theorem pe_image_t.Has.flag_of_name (h : img.Has f) {rva : UInt32} {thunk : UInt64} (hlt : rva.toNat < 2 ^ 31)
    (hthunk : thunk.toNat = rva.toNat) : thunk &&& img.ordinal_flag = 0 ∧ thunk.toUInt32 = rva := by
  have hword : 31 ≤ 8 * f.word - 1 := by
    rw [pe_file_t.word]
    split <;> decide
  refine ⟨?_, ?_⟩
  · rw [← UInt64.toNat_inj, UInt64.toNat_and, h.ordinal_flag, hthunk, UInt64.toNat_zero, and_two_pow_eq_zero]
    exact Nat.testBit_lt_two_pow (Nat.lt_of_lt_of_le hlt (Nat.pow_le_pow_right (by decide) hword))
  · rw [← UInt32.toNat_inj, UInt64.toNat_toUInt32, hthunk]
    omega

/-- The thunks are read as the imports that they are for. -/
theorem read_thunks_at (h : img.Has f) {imports : List import_t} {first_thunk : UInt32} {iat_off : Option Nat} {i : Nat}
    (hthunks : f.Thunks d off imports) (hn : imports.length ≤ n) :
    img.read_thunks d first_thunk iat_off n off i = some (f.import_list first_thunk (imports.zipIdx i)) := by
  induction imports generalizing off n i with
  | nil =>
    cases n with
    | zero => rfl
    | succ n =>
      have hin := inside_of_at word_pos hthunks
      obtain ⟨hread, -⟩ := h.read_thunk hthunks (Nat.pow_pos (by decide))
      rw [pe_image_t.read_thunks, h.thunk_size, if_neg (by omega), hread]
      rfl
  | cons m imports ih =>
    obtain ⟨n, rfl⟩ := Nat.exists_eq_succ_of_ne_zero (Nat.ne_of_gt (Nat.lt_of_lt_of_le (Nat.succ_pos _) hn))
    obtain ⟨hthunk, hrest⟩ := hthunks
    have hnext : img.read_thunks d first_thunk iat_off n (off + f.word) (i + 1) =
      some (f.import_list first_thunk (imports.zipIdx (i + 1))) := ih hrest (Nat.le_of_succ_le_succ hn)
    cases m with
    | name s =>
      obtain ⟨rva, hint, hlt, hne, hat, hbacked, hs, htext⟩ := hthunk
      have hin := inside_of_at word_pos hat
      obtain ⟨hread, hnat⟩ := h.read_thunk hat (by
        rw [pe_file_t.word]
        split <;> omega)
      obtain ⟨hflag, hrva⟩ := h.flag_of_name hlt hnat
      have hthunk : rva.toNat.toUInt64 ≠ 0 := by
        intro hzero
        rw [hzero] at hnat
        exact hne (UInt32.toNat_inj.mp hnat.symm)
      rw [pe_image_t.read_thunks, h.thunk_size, if_neg (by omega), hread]
      simp only [Option.bind_eq_bind, Option.bind_some, if_neg hthunk, hflag, ne_eq, not_true, if_false, hrva,
        h.rva_to_offset hbacked, read_cstring_at_text htext, if_neg hs, hnext]
      rfl
    | ordinal o =>
      have hin := inside_of_at word_pos hthunk
      obtain ⟨hread, hnat⟩ := h.read_thunk hthunk (by
        have ho := o.toNat_lt
        rw [pe_file_t.word]
        split <;> omega)
      obtain ⟨hflag, hordinal⟩ := h.flag_of_ordinal hnat
      have hthunk : (256 ^ f.word / 2 + o.toNat).toUInt64 ≠ 0 := by
        intro hzero
        rw [hzero] at hflag
        exact hflag (UInt64.zero_and)
      rw [pe_image_t.read_thunks, h.thunk_size, if_neg (by omega), hread]
      simp only [Option.bind_eq_bind, Option.bind_some, if_neg hthunk, if_pos hflag, hordinal, hnext]
      rfl

theorem read_dll_at (h : img.Has f) {m : dll_t} {oft_rva : UInt32} {thunks : Nat} (hname : m.name ≠ [])
    (hbacked : Backed f.sections (if oft_rva ≠ 0 then oft_rva else m.first_thunk) thunks) (hlength : m.imports.length ≤ 4096)
    (hthunks : f.Thunks d thunks m.imports) :
    img.read_dll d m.name oft_rva m.first_thunk = some (f.import_list m.first_thunk m.imports.zipIdx) := by
  rw [pe_image_t.read_dll]
  simp only [h.rva_to_offset hbacked, if_neg hname]
  exact read_thunks_at h hthunks hlength

/-- The descriptors are read as the DLLs that they are for. -/
theorem read_imports_at (h : img.Has f) {dlls : List dll_t} (hdescriptors : f.Descriptors d off dlls) (hn : dlls.length < n) :
    img.read_imports d n off = some (dlls.map fun m =>
      { dll := Numeral.text m.name, functions := f.import_list m.first_thunk m.imports.zipIdx }) := by
  obtain ⟨n, rfl⟩ := Nat.exists_eq_succ_of_ne_zero (Nat.ne_of_gt (Nat.lt_of_le_of_lt (Nat.zero_le _) hn))
  induction dlls generalizing off n with
  | nil =>
    have hempty : At d off (le 4 0 ++ List.replicate 8 0 ++ le 4 0 ++ List.replicate 4 0) := hdescriptors
    have hin := hempty.length_le (by simp)
    simp only [Bytes.at_append, List.length_append, Bytes.length_le, List.length_replicate] at hempty hin
    have hoft : rd32 d off = some 0 := rd32_at hempty.1.1.1
    have hname : rd32 d (off + 12) = some 0 := rd32_at hempty.1.2
    rw [pe_image_t.read_imports, if_neg (by omega), hoft, hname]
    rfl
  | cons m dlls ih =>
    obtain ⟨n, rfl⟩ := Nat.exists_eq_succ_of_ne_zero (Nat.ne_of_gt (Nat.lt_of_le_of_lt (Nat.zero_le _) (Nat.lt_of_succ_lt_succ hn)))
    obtain ⟨⟨oft_rva, name_rva, name_off, thunks, hoft, hrva, hfirst, hne, hname, hbacked, htext, hat, hlength, hthunks⟩,
      hrest⟩ := hdescriptors
    have hin := inside_of_at (by decide) hfirst
    have hmore : ¬ (oft_rva = 0 ∧ name_rva = 0) := fun hzero => hne hzero.2
    rw [pe_image_t.read_imports, if_neg (by omega), rd32_at hoft, rd32_at hrva]
    simp only [Option.bind_eq_bind, Option.bind_some, if_neg hmore, h.rva_to_offset hbacked, Option.getD_some,
      read_cstring_at_text htext, rd32_at hfirst, read_dll_at h hname hat hlength hthunks]
    rw [ih hrest n (Nat.lt_of_succ_lt_succ hn)]
    rfl

/-- The imports are those that the file describes. -/
theorem imports_of_at (h : img.Has f) (himports : f.Imports d (img.dir 1)) : img.imports_of d = some f.all_imports := by
  rw [pe_image_t.imports_of]
  rcases himports with ⟨hnone, hdlls⟩ | ⟨hrva, hsize, hlength, desc, hbacked, hdescriptors⟩
  · rw [if_neg (fun hsome => hsome.1 hnone), pe_file_t.all_imports, hdlls]
    rfl
  · simp only [if_pos (And.intro hrva hsize), h.rva_to_offset hbacked]
    exact read_imports_at h hdescriptors (by omega)

/-- What is read as imports of something else is nothing unless it leads to a descriptor. -/
theorem imports_of_stray (h : img.Has f) :
    ∃ imports, img.imports_of d = some imports ∧ (imports = [] ↔ ¬ f.StrayImports d (img.dir 1)) := by
  rw [pe_image_t.imports_of]
  by_cases hdir : (img.dir 1).rva ≠ 0 ∧ (img.dir 1).size ≠ 0
  · rw [if_pos hdir, h.offset]
    cases hoffset : f.offset (img.dir 1).rva with
    | none =>
      refine ⟨[], rfl, iff_of_true rfl ?_⟩
      rintro ⟨-, -, desc, hdesc, -⟩
      rw [hoffset] at hdesc
      cases hdesc
    | some desc =>
      dsimp only
      rw [pe_image_t.read_imports]
      by_cases hin : desc + 20 > d.length
      · refine ⟨[], if_pos hin, iff_of_true rfl ?_⟩
        rintro ⟨-, -, desc', hdesc, hlength, -⟩
        rw [hoffset] at hdesc
        cases hdesc
        omega
      · obtain ⟨oft_rva, hoft⟩ := Option.isSome_iff_exists.mp (rd32_isSome.mpr (show desc + 4 ≤ d.length by omega))
        obtain ⟨name_rva, hname⟩ := Option.isSome_iff_exists.mp (rd32_isSome.mpr (show desc + 12 + 4 ≤ d.length by omega))
        obtain ⟨first_thunk, hfirst⟩ := Option.isSome_iff_exists.mp (rd32_isSome.mpr (show desc + 16 + 4 ≤ d.length by omega))
        obtain ⟨dll, hdll⟩ := Option.isSome_iff_exists.mp
          (show (read_cstring_at d ((img.rva_to_offset name_rva).getD 0)).isSome from read_cstring_at_isSome)
        obtain ⟨functions, hfunctions⟩ := Option.isSome_iff_exists.mp
          (show (img.read_dll d dll oft_rva first_thunk).isSome from pe_image_t.read_dll_isSome)
        obtain ⟨rest, hrest⟩ := Option.isSome_iff_exists.mp
          (show (img.read_imports d 255 (desc + 20)).isSome from pe_image_t.read_imports_isSome)
        simp only [if_neg hin, hoft, hname, hfirst, hdll, hfunctions, hrest, Option.bind_eq_bind, Option.bind_some]
        by_cases hempty : oft_rva = 0 ∧ name_rva = 0
        · refine ⟨[], if_pos hempty, iff_of_true rfl ?_⟩
          rintro ⟨-, -, desc', hdesc, -, hmore⟩
          rw [hoffset] at hdesc
          cases hdesc
          exact hmore ⟨hempty.1 ▸ hoft, hempty.2 ▸ hname⟩
        · refine ⟨_, if_neg hempty, iff_of_false (List.cons_ne_nil _ _) ?_⟩
          refine not_not.mpr ⟨hdir.1, hdir.2, desc, hoffset, by omega, ?_⟩
          rintro ⟨hoft', hname'⟩
          rw [hoft] at hoft'
          rw [hname] at hname'
          exact hempty ⟨Option.some.inj hoft', Option.some.inj hname'⟩
  · rw [if_neg hdir]
    exact ⟨[], rfl, iff_of_true rfl fun hstray => hdir ⟨hstray.1, hstray.2.1⟩⟩

end

end slop.core.disasm
