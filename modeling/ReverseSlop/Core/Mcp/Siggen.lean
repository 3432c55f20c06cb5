import ReverseSlop.Core.Disasm.BinaryState
import ReverseSlop.Core.Memory.Aob.Text
import Mathlib.Data.List.DropRight

namespace slop.core.mcp

open disasm (engine_t insn_t flow_t)
open memory (aob_pattern_t aob_compile aob_match aob_to_string cell_text cell_match hex_byte Canonical)

/-- The text of a signature, one letter of its mask for each byte, and how far the decoder got. -/
structure siggen_t where
  pat : List UInt8 := []
  mask : List UInt8 := []
  off : Nat := 0
  insns : Nat := 0
  deriving DecidableEq

def is_branch (insn : insn_t) : Bool := insn.flow ≠ .none ∧ insn.flow ≠ .ret

/-- The bytes taken to move on a rebase. -/
def wild (insn : insn_t) (b : Nat) : Bool :=
  if insn.has_rip_rel ∧ insn.length.toNat ≥ 6 ∧ b ≥ insn.length.toNat - 4 ∧ is_branch insn = false then true
  else if is_branch insn ∧ insn.length.toNat = 5 ∧ b ≥ 1 then true
  else is_branch insn ∧ insn.length.toNat = 6 ∧ insn.bytes.headD 0 = 0x0F ∧ b ≥ 2

def siggen_t.add_byte (out : siggen_t) (byte : UInt8) (is_wild : Bool) : siggen_t :=
  if is_wild then { out with pat := out.pat ++ [63, 63, 32], mask := out.mask ++ [63] }
  else { out with pat := out.pat ++ (hex_byte byte ++ [32]), mask := out.mask ++ [120] }

def siggen_t.add_insn (out : siggen_t) (buf : List UInt8) (insn : insn_t) : siggen_t :=
  let out' := (List.range insn.length.toNat).foldl
    (fun out' b => out'.add_byte (buf.getD (out.off + b) 0) (wild insn b)) { out with insns := out.insns + 1 }
  { out' with off := out.off + insn.length.toNat }

def siggen_loop (eng : engine_t) (addr : UInt64) (buf : List UInt8) (out : siggen_t) : siggen_t :=
  if out.off < buf.length then
    match eng.decode (addr + out.off.toUInt64) (buf.drop out.off) with
    | none => out
    | some insn => if insn.length.toNat = 0 then out else siggen_loop eng addr buf (out.add_insn buf insn)
  else out
termination_by buf.length - out.off
decreasing_by
  simp only [siggen_t.add_insn]
  omega

/-- The signature of the code in `buf`, which stands at `addr`. -/
def siggen (eng : engine_t) (addr : UInt64) (buf : List UInt8) : Except String siggen_t :=
  let out := siggen_loop eng addr buf {}
  let pat := out.pat.rdropWhile (· = 32)
  if pat = [] then .error "nothing decodable at that address" else .ok { out with pat }

/-- The instructions of a region, with their offsets. -/
def decoded (eng : engine_t) (addr : UInt64) (buf : List UInt8) (off : Nat) : List (Nat × insn_t) :=
  if off < buf.length then
    match eng.decode (addr + off.toUInt64) (buf.drop off) with
    | none => []
    | some insn =>
      if insn.length.toNat = 0 then [] else (off, insn) :: decoded eng addr buf (off + insn.length.toNat)
  else []
termination_by buf.length - off
decreasing_by omega

/-- Where an encoding has the displacement of a rip-relative operand, and where the
distance of a direct branch: fields of four bytes. -/
structure fields_t where
  rip_disp : Option Nat := none
  rel32 : Option Nat := none

/-- An instruction has no more bytes than the buffer that it is decoded from. -/
def StaysInside (eng : engine_t) : Prop := ∀ va buf insn, eng.decode va buf = some insn → insn.length.toNat ≤ buf.length

/-- What the decoder says of an instruction, in terms of the fields of its encoding. -/
structure Decodes (eng : engine_t) (fields : List UInt8 → fields_t) : Prop where
  bytes : ∀ {va buf insn}, eng.decode va buf = some insn →
    insn.length.toNat ≤ buf.length ∧ insn.bytes = buf.take insn.length.toNat
  rip_rel : ∀ {va buf insn}, eng.decode va buf = some insn → insn.has_rip_rel = (fields insn.bytes).rip_disp.isSome
  -- an opcode and a ModRM byte stand before the displacement, and a branch through memory is an FF
  rip_disp : ∀ {va buf insn o}, eng.decode va buf = some insn → (fields insn.bytes).rip_disp = some o →
    2 ≤ o ∧ o + 4 ≤ insn.length.toNat ∧ (is_branch insn = true → insn.bytes[o - 2]? = some 0xFF)
  rel32 : ∀ {va buf insn r}, eng.decode va buf = some insn → (fields insn.bytes).rel32 = some r →
    is_branch insn = true ∧ 1 ≤ r ∧ r + 4 = insn.length.toNat ∧ (fields insn.bytes).rip_disp = none

/-- The byte belongs to a displacement. -/
def fields_t.Displaced (f : fields_t) (b : Nat) : Prop :=
  (∃ o, f.rip_disp = some o ∧ o ≤ b ∧ b < o + 4) ∨ ∃ r, f.rel32 = some r ∧ r ≤ b ∧ b < r + 4

/-- The pattern has a wildcard at each displaced byte, the other bytes as they are, and it matches the region. -/
structure Signs (fields : List UInt8 → fields_t) (insns : List (Nat × insn_t)) (buf : List UInt8) (p : aob_pattern_t) :
    Prop where
  wildcard : ∀ off insn, (off, insn) ∈ insns → ∀ b < insn.length.toNat,
    p.nibble_mask[off + b]? = some 0x00 ↔ (fields insn.bytes).Displaced b
  literal : ∀ off insn, (off, insn) ∈ insns → ∀ b < insn.length.toNat, ¬ (fields insn.bytes).Displaced b →
    p.nibble_mask[off + b]? = some 0xFF ∧ p.bytes[off + b]? = buf[off + b]?
  matched : aob_match p buf = true

/-- A branch has a distance of four bytes exactly if it is five bytes long, or six and starts with 0F, and
does not go through a rip-relative slot. In other instructions the rip-relative displacement comes last. -/
def PlainShape (f : fields_t) (insn : insn_t) : Prop :=
  if is_branch insn then
    f.rip_disp = none ∧
      (f.rel32.isSome ↔ insn.length.toNat = 5 ∨ insn.length.toNat = 6 ∧ insn.bytes.headD 0 = 0x0F)
  else ∀ o, f.rip_disp = some o → o + 4 = insn.length.toNat

def sign_cell (insn : insn_t) (b : Nat) (byte : UInt8) : UInt8 × UInt8 :=
  if wild insn b then (0x00, 0x00) else (byte, 0xFF)

/-- The values and masks of a signature. -/
def sign_cells (buf : List UInt8) (insns : List (Nat × insn_t)) : List (UInt8 × UInt8) :=
  insns.flatMap fun (off, insn) =>
    (List.range insn.length.toNat).map fun b => sign_cell insn b (buf.getD (off + b) 0)

/-- The letter of the mask for a value and a mask. -/
def mask_letter (cell : UInt8 × UInt8) : UInt8 := if cell.2 = 0x00 then 63 else 120

section

variable {eng : engine_t} {addr : UInt64} {buf : List UInt8} {out : siggen_t} {insn : insn_t} {off b : Nat}
  {fields : List UInt8 → fields_t} {cells : List (UInt8 × UInt8)}

theorem siggen_t.foldl_add_byte (bs : List Nat) (at_byte : Nat → UInt8) (is_wild : Nat → Bool) (out : siggen_t) :
    let cells := bs.map fun b => if is_wild b then (0x00, 0x00) else (at_byte b, 0xFF)
    bs.foldl (fun out b => out.add_byte (at_byte b) (is_wild b)) out =
      { out with
        pat := out.pat ++ cells.flatMap fun cell => cell_text cell ++ [32]
        mask := out.mask ++ cells.map mask_letter } := by
  induction bs generalizing out with
  | nil => simp
  | cons b bs ih =>
    rw [List.foldl_cons, ih]
    cases hwild : is_wild b <;>
      simp [siggen_t.add_byte, hwild, cell_text, mask_letter, List.append_assoc]

theorem siggen_t.add_insn_eq (out : siggen_t) (buf : List UInt8) (insn : insn_t) :
    out.add_insn buf insn =
      { pat := out.pat ++ (sign_cells buf [(out.off, insn)]).flatMap fun cell => cell_text cell ++ [32]
        mask := out.mask ++ (sign_cells buf [(out.off, insn)]).map mask_letter
        off := out.off + insn.length.toNat
        insns := out.insns + 1 } := by
  rw [siggen_t.add_insn, siggen_t.foldl_add_byte]
  simp only [sign_cells, sign_cell, List.flatMap_cons, List.flatMap_nil, List.append_nil]

theorem sign_cells_cons (buf : List UInt8) (off : Nat) (insn : insn_t) (insns : List (Nat × insn_t)) :
    sign_cells buf ((off, insn) :: insns) =
      (List.range insn.length.toNat).map (fun b => sign_cell insn b (buf.getD (off + b) 0)) ++ sign_cells buf insns :=
  List.flatMap_cons

theorem siggen_loop_eq (eng : engine_t) (addr : UInt64) (buf : List UInt8) (out : siggen_t) :
    let cells := sign_cells buf (decoded eng addr buf out.off)
    siggen_loop eng addr buf out =
      { pat := out.pat ++ cells.flatMap fun cell => cell_text cell ++ [32]
        mask := out.mask ++ cells.map mask_letter
        off := out.off + cells.length
        insns := out.insns + (decoded eng addr buf out.off).length } := by
  fun_induction siggen_loop eng addr buf out with
  | case1 out hmore hnone => simp [decoded, hmore, hnone, sign_cells]
  | case2 out hmore insn hsome hzero => simp [decoded, hmore, hsome, hzero, sign_cells]
  | case3 out hmore insn hsome hpos ih =>
    rw [ih, siggen_t.add_insn_eq, decoded.eq_def eng addr buf out.off, if_pos hmore, hsome]
    dsimp only
    rw [if_neg hpos, sign_cells_cons]
    simp only [sign_cells, List.flatMap_cons, List.flatMap_nil, List.append_nil, List.flatMap_append, List.map_append,
      List.append_assoc, List.length_append, List.length_map, List.length_range, List.length_cons, siggen_t.mk.injEq, true_and]
    omega
  | case4 out hdone => simp [decoded, hdone, sign_cells]

/-- A text of tokens ends in the last character of the last token. -/
theorem intercalate_cell_text (hne : cells ≠ []) :
    ∃ s c, [32].intercalate (cells.map cell_text) = s ++ [c] ∧ c ≠ 32 ∧
      (cells.flatMap fun cell => cell_text cell ++ [32]) = s ++ [c] ++ [32] := by
  induction cells with
  | nil => exact absurd rfl hne
  | cons cell cells ih =>
    obtain ⟨c, c', htext, -, hc'⟩ := memory.cell_text_eq cell
    have hspace : c' ≠ 32 := by
      rintro rfl
      cases hc'
    cases cells with
    | nil => exact ⟨[c], c', by simp [htext], hspace, by simp [htext]⟩
    | cons cell' cells =>
      obtain ⟨s, last, hjoined, hlast, hflat⟩ := ih (List.cons_ne_nil _ _)
      refine ⟨cell_text cell ++ [32] ++ s, last, ?_, hlast, ?_⟩
      · rw [List.map_cons] at hjoined ⊢
        rw [List.map_cons, List.intercalate_cons_cons, hjoined]
        simp only [List.append_assoc]
      · rw [List.flatMap_cons, hflat]
        simp only [List.append_assoc]

/-- The blank behind the last token is taken off again. -/
theorem rdropWhile_tokens (cells : List (UInt8 × UInt8)) :
    (cells.flatMap fun cell => cell_text cell ++ [32]).rdropWhile (· = 32) = [32].intercalate (cells.map cell_text) := by
  by_cases hne : cells = []
  · subst hne
    rfl
  obtain ⟨s, c, hjoined, hc, hflat⟩ := intercalate_cell_text hne
  rw [hjoined, hflat, List.rdropWhile_concat_pos _ _ _ (by decide), List.rdropWhile_concat_neg _ _ _ (by simpa using hc)]

theorem siggen_eq (eng : engine_t) (addr : UInt64) (buf : List UInt8) :
    let cells := sign_cells buf (decoded eng addr buf 0)
    siggen eng addr buf =
      if cells = [] then .error "nothing decodable at that address"
      else .ok
        { pat := [32].intercalate (cells.map cell_text)
          mask := cells.map mask_letter
          off := cells.length
          insns := (decoded eng addr buf 0).length } := by
  intro cells
  have hloop := siggen_loop_eq eng addr buf {}
  simp only [List.nil_append, Nat.zero_add] at hloop
  rw [siggen, hloop]
  dsimp only
  rw [rdropWhile_tokens]
  have hempty : [32].intercalate (cells.map cell_text) = [] ↔ cells = [] := by
    constructor
    · intro hnil
      by_contra hne
      obtain ⟨s, c, hjoined, -, -⟩ := intercalate_cell_text hne
      rw [hnil] at hjoined
      exact List.append_ne_nil_of_right_ne_nil s (List.cons_ne_nil c []) hjoined.symm
    · rintro hnil
      rw [hnil]
      rfl
  by_cases hne : cells = []
  · rw [if_pos (hempty.mpr hne), if_pos hne]
  · rw [if_neg (mt hempty.mp hne), if_neg hne]

theorem length_sign_masks (cells : List (UInt8 × UInt8)) : (cells.map Prod.snd).length = (cells.map Prod.fst).length := by
  rw [List.length_map, List.length_map]

theorem length_sign_bytes_pos (hne : cells ≠ []) : 0 < (cells.map Prod.fst).length := by
  rw [List.length_map]
  exact List.length_pos_iff.mpr hne

/-- The signature as a pattern. -/
def sign_pattern (cells : List (UInt8 × UInt8)) (hne : cells ≠ []) : aob_pattern_t where
  bytes := cells.map Prod.fst
  nibble_mask := cells.map Prod.snd
  same_length := length_sign_masks cells
  nonempty := length_sign_bytes_pos hne

theorem sign_pattern_zip (hne : cells ≠ []) :
    (sign_pattern cells hne).bytes.zip (sign_pattern cells hne).nibble_mask = cells :=
  (List.zip_of_prod rfl rfl).symm

theorem canonical_sign_cell (insn : insn_t) (b : Nat) (byte : UInt8) : Canonical (sign_cell insn b byte) := by
  rw [sign_cell]
  split
  · exact ⟨.inl rfl, rfl⟩
  · refine ⟨.inr (.inr (.inr rfl)), ?_⟩
    change byte &&& ~~~0xFF = 0
    rw [show ~~~(0xFF : UInt8) = 0 from rfl, UInt8.and_zero]

theorem compile_sign_cells (hne : cells ≠ []) (hcells : ∀ cell ∈ cells, Canonical cell) :
    aob_compile ([32].intercalate (cells.map cell_text)) = .ok (sign_pattern cells hne) := by
  have hcompile := memory.aob_compile_aob_to_string (sign_pattern cells hne) (by rwa [sign_pattern_zip])
  rwa [aob_to_string, sign_pattern_zip] at hcompile

theorem decoded_decode {insn : insn_t} (hinsn : (off, insn) ∈ decoded eng addr buf b) :
    b ≤ off ∧ off < buf.length ∧ eng.decode (addr + off.toUInt64) (buf.drop off) = some insn := by
  fun_induction decoded eng addr buf b with
  | case1 => cases hinsn
  | case2 => cases hinsn
  | case3 start hmore first hsome hpos ih =>
    rcases List.mem_cons.mp hinsn with heq | hinsn
    · cases heq
      exact ⟨le_rfl, hmore, hsome⟩
    · obtain ⟨hlo, hhi, hdecode⟩ := ih hinsn
      exact ⟨(Nat.le_add_right _ _).trans hlo, hhi, hdecode⟩
  | case4 => cases hinsn

/-- Each byte of an instruction is at its own place. -/
theorem sign_cells_getElem? {start : Nat} (hinsn : (off, insn) ∈ decoded eng addr buf start) (hb : b < insn.length.toNat) :
    (sign_cells buf (decoded eng addr buf start))[off - start + b]? = some (sign_cell insn b (buf.getD (off + b) 0)) := by
  fun_induction decoded eng addr buf start with
  | case1 => cases hinsn
  | case2 => cases hinsn
  | case3 start hmore first hsome hpos ih =>
    rw [sign_cells_cons]
    rcases List.mem_cons.mp hinsn with heq | hinsn
    · cases heq
      rw [Nat.sub_self, Nat.zero_add, List.getElem?_append_left (by simpa using hb)]
      simp [hb]
    · have hlo := (decoded_decode hinsn).1
      rw [List.getElem?_append_right (by simp only [List.length_map, List.length_range]; omega), ← ih hinsn]
      congr 1
      simp only [List.length_map, List.length_range]
      omega
  | case4 => cases hinsn

/-- Every place of the signature belongs to an instruction, inside the region. -/
theorem sign_cells_place (hinside : StaysInside eng) {start i : Nat} (hstart : start ≤ buf.length)
    (hi : i < (sign_cells buf (decoded eng addr buf start)).length) :
    start + i < buf.length ∧
      ∃ insn b, (sign_cells buf (decoded eng addr buf start))[i]? = some (sign_cell insn b (buf.getD (start + i) 0)) := by
  fun_induction decoded eng addr buf start generalizing i with
  | case1 => simp [sign_cells] at hi
  | case2 => simp [sign_cells] at hi
  | case3 start hmore first hsome hpos ih =>
    have hlength := hinside _ _ _ hsome
    rw [List.length_drop] at hlength
    rw [sign_cells_cons] at hi ⊢
    by_cases hfirst : i < first.length.toNat
    · refine ⟨by omega, first, i, ?_⟩
      rw [List.getElem?_append_left (by simpa using hfirst)]
      simp [hfirst]
    · rw [List.length_append, List.length_map, List.length_range] at hi
      obtain ⟨hbound, insn, b, hcell⟩ := ih (i := i - first.length.toNat) (by omega) (by omega)
      refine ⟨by omega, insn, b, ?_⟩
      rw [List.getElem?_append_right (by simp only [List.length_map, List.length_range]; omega), List.length_map,
        List.length_range, hcell]
      congr 3
      omega
  | case4 => simp [sign_cells] at hi

theorem cell_match_sign_cell (insn : insn_t) (b : Nat) (byte : UInt8) : cell_match (sign_cell insn b byte) byte = true := by
  rw [sign_cell]
  split <;> simp [cell_match]

theorem Decodes.inside (hdecodes : Decodes eng fields) : StaysInside eng := fun _ _ _ hdecode => (hdecodes.bytes hdecode).1

theorem length_sign_cells_le (hinside : StaysInside eng) (addr : UInt64) (buf : List UInt8) :
    (sign_cells buf (decoded eng addr buf 0)).length ≤ buf.length := by
  by_contra hlong
  have hplace : 0 + buf.length < buf.length ∧ _ := sign_cells_place hinside (Nat.zero_le buf.length) (Nat.lt_of_not_le hlong)
  omega

theorem sign_pattern_match (hinside : StaysInside eng) (addr : UInt64) (buf : List UInt8)
    (hne : sign_cells buf (decoded eng addr buf 0) ≠ []) : aob_match (sign_pattern _ hne) buf = true := by
  have hsize : (sign_pattern _ hne).size = (sign_cells buf (decoded eng addr buf 0)).length := List.length_map _
  have hfits := length_sign_cells_le hinside addr buf
  rw [memory.aob_match_iff, sign_pattern_zip, hsize]
  refine ⟨hfits, List.forall₂_iff_get.mpr ⟨by rw [List.length_take, Nat.min_eq_left hfits], fun i hi hi' => ?_⟩⟩
  obtain ⟨hbound, insn, b, hcell⟩ := sign_cells_place hinside (Nat.zero_le _) hi
  rw [List.getElem?_eq_getElem hi] at hcell
  have hbyte : buf.getD (0 + i) 0 = buf[i] := by
    rw [Nat.zero_add, List.getD_eq_getElem?_getD, List.getElem?_eq_getElem (by omega), Option.getD_some]
  rw [List.get_eq_getElem, List.get_eq_getElem, Option.some.inj hcell, List.getElem_take, hbyte]
  exact cell_match_sign_cell insn b _

theorem canonical_sign_cells (buf : List UInt8) (insns : List (Nat × insn_t)) :
    ∀ cell ∈ sign_cells buf insns, Canonical cell := by
  intro cell hcell
  obtain ⟨⟨off, insn⟩, -, hcell⟩ := List.mem_flatMap.mp hcell
  obtain ⟨b, -, rfl⟩ := List.mem_map.mp hcell
  exact canonical_sign_cell insn b _

/-- Whatever is wild, the signature compiles, and it matches the code it was made from. -/
theorem siggen_matches (hinside : StaysInside eng) (hok : siggen eng addr buf = .ok out) :
    ∃ p, aob_compile out.pat = .ok p ∧ p.size ≤ buf.length ∧ aob_match p buf = true := by
  rw [siggen_eq] at hok
  split at hok
  · cases hok
  rename_i hne
  cases hok
  refine ⟨_, compile_sign_cells hne (canonical_sign_cells _ _), ?_, sign_pattern_match hinside addr buf hne⟩
  rw [aob_pattern_t.size, sign_pattern, List.length_map]
  exact length_sign_cells_le hinside addr buf

theorem wild_branch (hbranch : is_branch insn = true) :
    wild insn b = true ↔ insn.length.toNat = 5 ∧ 1 ≤ b ∨ (insn.length.toNat = 6 ∧ insn.bytes.headD 0 = 0x0F) ∧ 2 ≤ b := by
  simp only [wild, hbranch, Bool.true_eq_false, and_false, if_false, true_and]
  split
  · rename_i hshort
    exact iff_of_true rfl (.inl hshort)
  · rename_i hlong
    rw [decide_eq_true_iff, or_iff_right hlong, and_assoc]

theorem wild_plain (hbranch : is_branch insn = false) :
    wild insn b = true ↔ insn.has_rip_rel = true ∧ 6 ≤ insn.length.toNat ∧ insn.length.toNat - 4 ≤ b := by
  simp only [wild, hbranch, Bool.false_eq_true, and_true, false_and, if_false, decide_false]
  split <;> simp_all

variable {va : UInt64} {bytes : List UInt8}

theorem displaced_branch (hrip : (fields insn.bytes).rip_disp = none) :
    (fields insn.bytes).Displaced b ↔ ∃ r, (fields insn.bytes).rel32 = some r ∧ r ≤ b ∧ b < r + 4 := by
  rw [fields_t.Displaced, hrip]
  refine or_iff_right ?_
  rintro ⟨o, ho, -⟩
  cases ho

theorem displaced_plain (hdecodes : Decodes eng fields) (hdecode : eng.decode va bytes = some insn)
    (hbranch : is_branch insn = false) :
    (fields insn.bytes).Displaced b ↔ ∃ o, (fields insn.bytes).rip_disp = some o ∧ o ≤ b ∧ b < o + 4 := by
  refine or_iff_left ?_
  rintro ⟨r, hr, -⟩
  rw [(hdecodes.rel32 hdecode hr).1] at hbranch
  cases hbranch

theorem plain_iff (hdecodes : Decodes eng fields) (hdecode : eng.decode va bytes = some insn)
    (hbranch : is_branch insn = false) :
    (∀ o, (fields insn.bytes).rip_disp = some o → o + 4 = insn.length.toNat) ↔
      ∀ b < insn.length.toNat, wild insn b = true ↔ (fields insn.bytes).Displaced b := by
  have hrip := hdecodes.rip_rel hdecode
  simp only [wild_plain hbranch, displaced_plain hdecodes hdecode hbranch, hrip]
  cases ho : (fields insn.bytes).rip_disp with
  | none => simp
  | some o =>
    obtain ⟨hlo, hhi, -⟩ := hdecodes.rip_disp hdecode ho
    simp only [Option.isSome_some, true_and, Option.some.injEq, exists_eq_left', forall_eq']
    constructor
    · intro hlast b hb
      omega
    · intro hall
      have hfirst := (hall o (by omega)).mpr (by omega)
      omega

theorem branch_iff (hdecodes : Decodes eng fields) (hdecode : eng.decode va bytes = some insn)
    (hbranch : is_branch insn = true) :
    ((fields insn.bytes).rip_disp = none ∧
        ((fields insn.bytes).rel32.isSome ↔ insn.length.toNat = 5 ∨ insn.length.toNat = 6 ∧ insn.bytes.headD 0 = 0x0F)) ↔
      ∀ b < insn.length.toNat, wild insn b = true ↔ (fields insn.bytes).Displaced b := by
  simp only [wild_branch hbranch]
  cases ho : (fields insn.bytes).rip_disp with
  | some o =>
    -- the slot of the branch is not wild
    obtain ⟨hlo, hhi, hopcode⟩ := hdecodes.rip_disp hdecode ho
    refine iff_of_false (fun h => ?_) (fun hall => ?_)
    · cases h.1
    · rcases (hall o (by omega)).mpr (.inl ⟨o, ho, le_rfl, by omega⟩) with hfive | ⟨⟨hsix, hhead⟩, -⟩
      · omega
      · have hfirst := hopcode hbranch
        rw [show o - 2 = 0 by omega, ← List.head?_eq_getElem?] at hfirst
        rw [List.headD_eq_head?_getD, hfirst] at hhead
        cases hhead
  | none =>
    simp only [displaced_branch ho, true_and]
    cases hr : (fields insn.bytes).rel32 with
    | some r =>
      obtain ⟨-, hlo, hhi, -⟩ := hdecodes.rel32 hdecode hr
      simp only [Option.isSome_some, true_iff, Option.some.injEq, exists_eq_left']
      constructor
      · rintro (hfive | hsix) b hb
        · omega
        · rw [and_iff_right hsix]
          omega
      · intro hall
        rcases (hall r (by omega)).mpr (by omega) with hfive | hsix
        · exact .inl hfive.1
        · exact .inr hsix.1
    | none =>
      simp only [Option.isSome_none, Bool.false_eq_true, false_iff, reduceCtorEq, false_and, exists_false, iff_false]
      constructor
      · intro hnot b _ hwild
        exact hnot (hwild.imp And.left And.left)
      · rintro hall (hfive | hsix)
        · exact hall 1 (by omega) (.inl ⟨hfive, le_rfl⟩)
        · exact hall 2 (by omega) (.inr ⟨hsix, le_rfl⟩)

/-- The guess from the length is right exactly if the instruction has the shape for it. -/
theorem plainShape_iff (hdecodes : Decodes eng fields) (hdecode : eng.decode va bytes = some insn) :
    PlainShape (fields insn.bytes) insn ↔
      ∀ b < insn.length.toNat, wild insn b = true ↔ (fields insn.bytes).Displaced b := by
  rw [PlainShape]
  split
  · rename_i hbranch
    exact branch_iff hdecodes hdecode hbranch
  · rename_i hbranch
    exact plain_iff hdecodes hdecode (Bool.not_eq_true _ ▸ hbranch)

theorem sign_cell_eq_zero {c : UInt8} : (sign_cell insn b c).2 = 0x00 ↔ wild insn b = true := by
  rw [sign_cell]
  split <;> simp_all

end

/-- The signature of a region has its wildcards where the displacements are, and is literal elsewhere. -/
def SignsDisplacements (fields : List UInt8 → fields_t) (eng : engine_t) (addr : UInt64) (buf : List UInt8) : Prop :=
  ∀ out, siggen eng addr buf = .ok out →
    ∃ p, aob_compile out.pat = .ok p ∧ Signs fields (decoded eng addr buf 0) buf p

/-- The wildcards are the displacements exactly if every instruction has the shape that its length is taken for. -/
theorem siggen_wildcards (eng : engine_t) (fields : List UInt8 → fields_t) (hdecodes : Decodes eng fields)
    (addr : UInt64) (buf : List UInt8) :
    SignsDisplacements fields eng addr buf ↔
      ∀ off insn, (off, insn) ∈ decoded eng addr buf 0 → PlainShape (fields insn.bytes) insn := by
  have hplace : ∀ off insn, (off, insn) ∈ decoded eng addr buf 0 → ∀ b < insn.length.toNat,
      off + b < buf.length ∧ (sign_cells buf (decoded eng addr buf 0))[off + b]? =
        some (sign_cell insn b (buf.getD (off + b) 0)) := by
    intro off insn hinsn b hb
    obtain ⟨-, hoff, hdecode⟩ := decoded_decode hinsn
    have hlength := (hdecodes.bytes hdecode).1
    rw [List.length_drop] at hlength
    exact ⟨by omega, sign_cells_getElem? hinsn hb⟩
  have hmask : ∀ hne off insn, (off, insn) ∈ decoded eng addr buf 0 → ∀ b < insn.length.toNat,
      (sign_pattern (sign_cells buf (decoded eng addr buf 0)) hne).nibble_mask[off + b]? = some 0x00 ↔ wild insn b = true := by
    intro hne off insn hinsn b hb
    rw [sign_pattern, List.getElem?_map, (hplace off insn hinsn b hb).2, Option.map_some, Option.some.injEq,
      sign_cell_eq_zero]
  constructor
  · intro hsigns off insn hinsn
    obtain ⟨-, -, hdecode⟩ := decoded_decode hinsn
    refine (plainShape_iff hdecodes hdecode).mpr fun b hb => ?_
    have hne : sign_cells buf (decoded eng addr buf 0) ≠ [] := by
      intro hnil
      have hcell := (hplace off insn hinsn b hb).2
      rw [hnil] at hcell
      cases hcell
    obtain ⟨p, hcompile, hsigns⟩ := hsigns _ ((siggen_eq eng addr buf).trans (if_neg hne))
    obtain rfl : sign_pattern _ hne = p := Except.ok.inj ((compile_sign_cells hne (canonical_sign_cells _ _)).symm.trans hcompile)
    exact (hmask hne off insn hinsn b hb).symm.trans (hsigns.wildcard off insn hinsn b hb)
  · intro hshapes out hout
    rw [siggen_eq] at hout
    split at hout
    · cases hout
    rename_i hne
    cases hout
    refine ⟨_, compile_sign_cells hne (canonical_sign_cells _ _), ?_, ?_, sign_pattern_match hdecodes.inside addr buf hne⟩
    · intro off insn hinsn b hb
      exact (hmask hne off insn hinsn b hb).trans
        ((plainShape_iff hdecodes (decoded_decode hinsn).2.2).mp (hshapes off insn hinsn) b hb)
    · intro off insn hinsn b hb hliteral
      obtain ⟨hbound, hcell⟩ := hplace off insn hinsn b hb
      have hwild := mt ((plainShape_iff hdecodes (decoded_decode hinsn).2.2).mp (hshapes off insn hinsn) b hb).mp hliteral
      rw [sign_cell, if_neg hwild] at hcell
      rw [sign_pattern, List.getElem?_map, List.getElem?_map, hcell, List.getD_eq_getElem?_getD,
        List.getElem?_eq_getElem hbound]
      exact ⟨rfl, rfl⟩

/-- Decodes `mov dword [rip+disp32], imm32`, `mov rax, [rip+disp32]`, `call rel32` and `ret`. -/
def sample_decode (va : UInt64) (buf : List UInt8) : Option insn_t :=
  if buf.head? = some 0xC7 ∧ buf[1]? = some 0x05 ∧ 10 ≤ buf.length then
    some { va, length := 10, bytes := buf.take 10, mnemonic := .MOV, has_rip_rel := true }
  else if buf.head? = some 0x48 ∧ buf[1]? = some 0x8B ∧ buf[2]? = some 0x05 ∧ 7 ≤ buf.length then
    some { va, length := 7, bytes := buf.take 7, mnemonic := .MOV, has_rip_rel := true }
  else if buf.head? = some 0xE8 ∧ 5 ≤ buf.length then
    some { va, length := 5, bytes := buf.take 5, flow := .call, has_rel_target := true }
  else if buf.head? = some 0xC3 then some { va, length := 1, bytes := buf.take 1, flow := .ret, mnemonic := .RET }
  else none

def sample_fields (bytes : List UInt8) : fields_t :=
  match bytes.head? with
  | some 0xC7 => { rip_disp := some 2 }
  | some 0x48 => { rip_disp := some 3 }
  | some 0xE8 => { rel32 := some 1 }
  | _ => {}

theorem sample_decode_cases {va : UInt64} {buf : List UInt8} {insn : insn_t} (hdecode : sample_decode va buf = some insn) :
    insn.length.toNat ≤ buf.length ∧ insn.bytes = buf.take insn.length.toNat ∧
      (insn.length = 10 ∧ insn.flow = .none ∧ insn.has_rip_rel = true ∧ sample_fields insn.bytes = { rip_disp := some 2 } ∨
        insn.length = 7 ∧ insn.flow = .none ∧ insn.has_rip_rel = true ∧ sample_fields insn.bytes = { rip_disp := some 3 } ∨
        insn.length = 5 ∧ insn.flow = .call ∧ insn.has_rip_rel = false ∧ sample_fields insn.bytes = { rel32 := some 1 } ∨
        insn.length = 1 ∧ insn.flow = .ret ∧ insn.has_rip_rel = false ∧ sample_fields insn.bytes = {}) := by
  rw [sample_decode] at hdecode
  split at hdecode
  · rename_i hcode
    cases hdecode
    exact ⟨hcode.2.2, rfl, .inl ⟨rfl, rfl, rfl, by simp [sample_fields, List.head?_take, hcode.1]⟩⟩
  split at hdecode
  · rename_i hcode
    cases hdecode
    exact ⟨hcode.2.2.2, rfl, .inr (.inl ⟨rfl, rfl, rfl, by simp [sample_fields, List.head?_take, hcode.1]⟩)⟩
  split at hdecode
  · rename_i hcode
    cases hdecode
    exact ⟨hcode.2, rfl, .inr (.inr (.inl ⟨rfl, rfl, rfl, by simp [sample_fields, List.head?_take, hcode.1]⟩))⟩
  split at hdecode
  · rename_i hcode
    cases hdecode
    have hpos : 1 ≤ buf.length := by
      cases buf with
      | nil => cases hcode
      | cons => simp
    exact ⟨hpos, rfl, .inr (.inr (.inr ⟨rfl, rfl, rfl, by simp [sample_fields, List.head?_take, hcode]⟩))⟩
  · cases hdecode

theorem sample_decodes : Decodes ⟨sample_decode⟩ sample_fields := by
  constructor
  · intro va buf insn hdecode
    obtain ⟨hlength, hbytes, -⟩ := sample_decode_cases hdecode
    exact ⟨hlength, hbytes⟩
  · intro va buf insn hdecode
    obtain ⟨-, -, ⟨-, -, hrip, hfields⟩ | ⟨-, -, hrip, hfields⟩ | ⟨-, -, hrip, hfields⟩ | ⟨-, -, hrip, hfields⟩⟩ :=
      sample_decode_cases hdecode
    all_goals rw [hrip, hfields]; rfl
  · intro va buf insn o hdecode ho
    obtain ⟨-, -, hcases⟩ := sample_decode_cases hdecode
    rcases hcases with ⟨hlen, hflow, -, hfields⟩ | ⟨hlen, hflow, -, hfields⟩ | ⟨-, -, -, hfields⟩ | ⟨-, -, -, hfields⟩
    all_goals rw [hfields] at ho; cases ho
    all_goals simp [hlen, is_branch, hflow]
  · intro va buf insn r hdecode hr
    obtain ⟨-, -, hcases⟩ := sample_decode_cases hdecode
    rcases hcases with ⟨-, -, -, hfields⟩ | ⟨-, -, -, hfields⟩ | ⟨hlen, hflow, -, hfields⟩ | ⟨-, -, -, hfields⟩
    all_goals rw [hfields] at hr; cases hr
    simp [hlen, is_branch, hflow, hfields]

/-- `mov rax, [rip+10h]`, `call` and `ret`. -/
def sample_code : List UInt8 := [0x48, 0x8B, 0x05, 0x10, 0, 0, 0, 0xE8, 0x20, 0, 0, 0, 0xC3]

/-- `48 8B 05 ?? ?? ?? ?? E8 ?? ?? ?? ?? C3`. -/
theorem siggen_wildcards_sample : SignsDisplacements sample_fields ⟨sample_decode⟩ 0x1000 sample_code := by
  apply (siggen_wildcards ⟨sample_decode⟩ sample_fields sample_decodes 0x1000 sample_code).mpr
  intro off insn hinsn
  simp [decoded, sample_decode, sample_code] at hinsn
  rcases hinsn with ⟨-, rfl⟩ | ⟨-, rfl⟩ | ⟨-, rfl⟩ <;> simp [PlainShape, is_branch, sample_fields]

/-- `C7 05 10 20 30 40 ?? ?? ?? ??`. -/
def immediate_signature : siggen_t where
  pat := Numeral.ascii "C7 05 10 20 30 40 ?? ?? ?? ??"
  mask := Numeral.ascii "xxxxxx????"
  off := 10
  insns := 1

/-- `mov dword [rip+40302010h], 1`: the wildcards are at the immediate. -/
theorem immediate_wildcarded :
    siggen ⟨sample_decode⟩ 0x1000 [0xC7, 0x05, 0x10, 0x20, 0x30, 0x40, 1, 0, 0, 0] = .ok immediate_signature ∧
      ¬ SignsDisplacements sample_fields ⟨sample_decode⟩ 0x1000 [0xC7, 0x05, 0x10, 0x20, 0x30, 0x40, 1, 0, 0, 0] := by
  have hsiggen : siggen ⟨sample_decode⟩ 0x1000 [0xC7, 0x05, 0x10, 0x20, 0x30, 0x40, 1, 0, 0, 0] = .ok immediate_signature := by
    rw [siggen_eq]
    simp [decoded, sample_decode, sign_cells, List.range_succ, sign_cell, wild, is_branch]
    decide +kernel
  refine ⟨hsiggen, fun hsigns => ?_⟩
  obtain ⟨p, hcompile, hsigns⟩ := hsigns _ hsiggen
  have hinsn : ∃ insn, (0, insn) ∈ decoded ⟨sample_decode⟩ 0x1000 [0xC7, 0x05, 0x10, 0x20, 0x30, 0x40, 1, 0, 0, 0] 0 ∧
      insn.length = 10 ∧ sample_fields insn.bytes = { rip_disp := some 2 } := by
    simp [decoded, sample_decode, sample_fields]
  obtain ⟨insn, hinsn, hlength, hfields⟩ := hinsn
  have hmask : (aob_compile immediate_signature.pat).toOption.bind (·.nibble_mask[2]?) = some 0xFF := by decide +kernel
  rw [hcompile] at hmask
  have hwild := (hsigns.wildcard 0 insn hinsn 2 (by rw [hlength]; decide)).mpr
    (by rw [hfields]; exact .inl ⟨2, rfl, le_rfl, by decide⟩)
  cases hmask.symm.trans hwild

end slop.core.mcp
