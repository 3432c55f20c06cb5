import ReverseSlop.Core.Disasm.FunctionIndex
import ReverseSlop.Library.Numeral

namespace slop.core.analysis.libsig

open disasm (pe_image_t pe_section_t)
open disasm.function_index (function_t)

structure libsig_t where
  name : String
  /-- Hexadecimal, with `??` for any byte. -/
  pattern : List UInt8
  offset : UInt32 := 0

structure libsig_hit_t where
  sig_name : String
  va : UInt64
  function_va : Option UInt64 := none

/-- A compiled signature. A mask of 1 says that the byte must match. -/
structure compiled_sig_t where
  name : String
  bytes : List (UInt8 × UInt8)
  anchor_offset : UInt32

def is_hex (c : UInt8) : Bool := (Numeral.digit c).any (· < 16)

/-- The byte with two digits. -/
def hex_byte (c d : UInt8) : UInt8 := ((Numeral.digit c).getD 0 * 16 + (Numeral.digit d).getD 0).toUInt8

def compile_pattern : List UInt8 → Option (List (UInt8 × UInt8))
  | [] => some []
  | c :: s =>
    if c = 32 then compile_pattern s
    else
      match s with
      | [] => none
      | d :: s =>
        if c = 63 then if d = 63 then (compile_pattern s).map ((0, 0) :: ·) else none
        else if is_hex c ∧ is_hex d then (compile_pattern s).map ((hex_byte c d, 1) :: ·)
        else none

def compile (sig : libsig_t) : Option compiled_sig_t :=
  match compile_pattern sig.pattern with
  | some (b :: bytes) => some ⟨sig.name, b :: bytes, sig.offset⟩
  | _ => none

def enclosing_function (fns : List function_t) (va : UInt64) : Option function_t :=
  match Extents.last_le (fun f => f.va.toNat) va.toNat fns with
  | none => none
  | some f => if va ≥ f.va ∧ va < f.va + f.size then some f else none

/-- The bytes of a section that are in the file and in the image. -/
def mapped (file : List UInt8) (sec : pe_section_t) : List UInt8 :=
  (file.drop sec.raw_offset.toNat).take (min sec.raw_size.toNat sec.virtual_size.toNat)

def matches_at (cs : compiled_sig_t) (data : List UInt8) (i : Nat) : Bool :=
  (cs.bytes.zip (data.drop i)).all fun ((byte, m), x) => x &&& m == byte &&& m

/-- The first position of the bytes at which the signature matches. -/
def find_sig (cs : compiled_sig_t) (data : List UInt8) : Option Nat :=
  if data.length < cs.bytes.length then none
  else (List.range (data.length - cs.bytes.length + 1)).find? (matches_at cs data)

def hit_at (pe : pe_image_t) (fns : List function_t) (sec : pe_section_t) (cs : compiled_sig_t) (i : Nat) : libsig_hit_t :=
  let rel := if i ≥ cs.anchor_offset.toNat then i - cs.anchor_offset.toNat else 0
  let va := pe.image_base + sec.rva.toUInt64 + rel.toUInt32.toUInt64
  ⟨cs.name, va, (enclosing_function fns va).map function_t.va⟩

/-- The executable sections that are in the file. -/
def exec_sections (pe : pe_image_t) (file : List UInt8) : List pe_section_t :=
  pe.sections.filter fun sec =>
    sec.is_executable && sec.raw_size ≠ 0 && sec.raw_offset.toNat + sec.raw_size.toNat ≤ file.length

/-- One hit for a signature in a section. -/
def libsig_scan (pe : pe_image_t) (file : List UInt8) (fns : List function_t) (sigs : List libsig_t) : List libsig_hit_t :=
  if !pe.ok then []
  else
    let compiled := sigs.filterMap compile
    (exec_sections pe file).flatMap fun sec =>
      compiled.filterMap fun cs => (find_sig cs (mapped file sec)).map (hit_at pe fns sec cs)

/-- The bytes that a text denotes, without one for each wildcard. -/
inductive Denotes : List UInt8 → List (Option UInt8) → Prop where
  | nil : Denotes [] []
  | space {s p} (hrest : Denotes s p) : Denotes (32 :: s) p
  | wildcard {s p} (hrest : Denotes s p) : Denotes (63 :: 63 :: s) (none :: p)
  | byte {c d s p} (hc : is_hex c) (hd : is_hex d) (hrest : Denotes s p) : Denotes (c :: d :: s) (some (hex_byte c d) :: p)

section

variable {s data file : List UInt8} {p : List (Option UInt8)} {pe : pe_image_t} {fns : List function_t}
  {sec : pe_section_t} {cs : compiled_sig_t} {i : Nat}

/-- The masked form of a byte or a wildcard. -/
def masked : Option UInt8 → UInt8 × UInt8
  | some b => (b, 1)
  | none => (0, 0)

theorem compile_pattern_iff {bytes : List (UInt8 × UInt8)} :
    compile_pattern s = some bytes ↔ ∃ p, Denotes s p ∧ bytes = p.map masked := by
  constructor
  · intro hcompile
    fun_induction compile_pattern s generalizing bytes with
    | case1 =>
      obtain rfl := Option.some.inj hcompile
      exact ⟨[], .nil, rfl⟩
    | case2 s ih =>
      obtain ⟨p, hp, hbytes⟩ := ih hcompile
      exact ⟨p, .space hp, hbytes⟩
    | case3 => cases hcompile
    | case4 s _ ih =>
      obtain ⟨rest, hrest, rfl⟩ := Option.map_eq_some_iff.mp hcompile
      obtain ⟨p, hp, rfl⟩ := ih hrest
      exact ⟨none :: p, .wildcard hp, rfl⟩
    | case5 => cases hcompile
    | case6 c d s _ _ hhex ih =>
      obtain ⟨rest, hrest, rfl⟩ := Option.map_eq_some_iff.mp hcompile
      obtain ⟨p, hp, rfl⟩ := ih hrest
      exact ⟨_ :: p, .byte hhex.1 hhex.2 hp, rfl⟩
    | case7 => cases hcompile
  · rintro ⟨p, hp, rfl⟩
    induction hp with
    | nil => rfl
    | space _ ih =>
      rw [compile_pattern.eq_def]
      exact ih
    | wildcard _ ih => simp [compile_pattern, ih, masked]
    | @byte c d s p hc hd _ ih =>
      have hspace : c ≠ 32 := by
        rintro rfl
        exact absurd hc (by decide)
      have hwild : c ≠ 63 := by
        rintro rfl
        exact absurd hc (by decide)
      simp [compile_pattern, hspace, hwild, hc, hd, ih, masked]

/-- A signature compiles exactly if its pattern is the text of some bytes. -/
theorem compile_iff {sig : libsig_t} : compile sig = some cs ↔
    ∃ p, p ≠ [] ∧ Denotes sig.pattern p ∧ cs = ⟨sig.name, p.map masked, sig.offset⟩ := by
  rw [compile]
  constructor
  · intro hcompile
    split at hcompile
    case h_1 b bytes hpattern =>
      obtain ⟨p, hp, hbytes⟩ := compile_pattern_iff.mp hpattern
      refine ⟨p, ?_, hp, ?_⟩
      · rintro rfl
        cases hbytes
      · rw [← hbytes]
        exact (Option.some.inj hcompile).symm
    · cases hcompile
  · rintro ⟨p, hne, hp, rfl⟩
    rw [compile_pattern_iff.mpr ⟨p, hp, rfl⟩]
    cases p with
    | nil => exact absurd rfl hne
    | cons b p => rfl

/-- At `i` the data agree with the bytes of a pattern as far as `R` says. -/
def Agrees (R : UInt8 → UInt8 → Prop) (p : List (Option UInt8)) (data : List UInt8) (i : Nat) : Prop :=
  i + p.length ≤ data.length ∧ ∀ j b, p[j]? = some (some b) → ∃ x, data[i + j]? = some x ∧ R b x

/-- Every byte of the pattern that is not a wildcard is in the data. -/
abbrev Match : List (Option UInt8) → List UInt8 → Nat → Prop := Agrees Eq

/-- Every byte has the lowest bit of the one in the data. -/
abbrev LowMatch : List (Option UInt8) → List UInt8 → Nat → Prop := Agrees fun b x => b &&& 1 = x &&& 1

theorem Match.low (hmatch : Match p data i) : LowMatch p data i :=
  ⟨hmatch.1, fun j b hj => (hmatch.2 j b hj).imp fun _ ⟨hx, heq⟩ => ⟨hx, by rw [heq]⟩⟩

/-- The comparison under the masks only looks at the lowest bits. -/
theorem matches_at_iff {name : String} {offset : UInt32} (hroom : i + p.length ≤ data.length) :
    matches_at ⟨name, p.map masked, offset⟩ data i ↔ LowMatch p data i := by
  have hlength : i + p.length ≤ data.length ↔ p.length ≤ (data.drop i).length := by
    rw [List.length_drop]
    omega
  have hzip : ∀ (p : List (Option UInt8)) (d : List UInt8), p.length ≤ d.length →
      (((p.map masked).zip d).all (fun ((byte, m), x) => x &&& m == byte &&& m) ↔
        ∀ (j : Nat) (b : UInt8), p[j]? = some (some b) → ∃ x, d[j]? = some x ∧ b &&& 1 = x &&& 1) := by
    intro p
    induction p with
    | nil => simp
    | cons b p ih =>
      intro d hd
      cases d with
      | nil => simp at hd
      | cons x d =>
        rw [List.length_cons, List.length_cons, Nat.add_le_add_iff_right] at hd
        rw [List.map_cons, List.zip_cons_cons, List.all_cons, Bool.and_eq_true, ih d hd]
        constructor
        · rintro ⟨hfirst, hrest⟩ j b' hj
          cases j with
          | zero =>
            obtain rfl := Option.some.inj hj
            exact ⟨x, rfl, (beq_iff_eq.mp hfirst).symm⟩
          | succ j => exact hrest j b' hj
        · intro hall
          refine ⟨?_, fun j b' hj => hall (j + 1) b' hj⟩
          cases b with
          | none => simp [masked]
          | some b =>
            obtain ⟨x', hx', hbit⟩ := hall 0 b rfl
            obtain rfl := Option.some.inj hx'
            exact beq_iff_eq.mpr hbit.symm
  rw [matches_at, hzip p _ (hlength.mp hroom), LowMatch, Agrees]
  simp only [List.getElem?_drop]
  exact ⟨fun h => ⟨hroom, h⟩, fun h => h.2⟩

/-- The first position of a match of some kind. -/
def First (P : Nat → Prop) (e : Nat) : Prop := P e ∧ ∀ i < e, ¬ P i

theorem First.exists {P : Nat → Prop} (hP : P i) : ∃ e, First P e := by
  classical
  exact ⟨Nat.find ⟨i, hP⟩, Nat.find_spec ⟨i, hP⟩, fun j hj => Nat.find_min ⟨i, hP⟩ hj⟩

theorem find_sig_eq_some {name : String} {offset : UInt32} :
    find_sig ⟨name, p.map masked, offset⟩ data = some i ↔ First (LowMatch p data) i := by
  rw [find_sig]
  simp only [List.length_map]
  split
  · refine iff_of_false (by rintro ⟨⟩) ?_
    rintro ⟨⟨hroom, -⟩, -⟩
    omega
  · rw [List.find?_range_eq_some]
    constructor
    · rintro ⟨hmatch, hi, hfirst⟩
      have hi := List.mem_range.mp hi
      refine ⟨(matches_at_iff (by omega)).mp hmatch, fun j hj hlow => ?_⟩
      have hnot := hfirst j hj
      rw [(matches_at_iff (by omega)).mpr hlow] at hnot
      cases hnot
    · rintro ⟨hlow, hfirst⟩
      have hroom := hlow.1
      refine ⟨(matches_at_iff hroom).mpr hlow, List.mem_range.mpr (by omega), fun j hj => ?_⟩
      have hnot : ¬ matches_at ⟨name, p.map masked, offset⟩ data j :=
        fun hmatch => hfirst j hj ((matches_at_iff (by omega)).mp hmatch)
      simpa using hnot

end

end slop.core.analysis.libsig
