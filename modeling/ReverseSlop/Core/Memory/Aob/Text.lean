import ReverseSlop.Core.Memory.Aob.Language

namespace slop.core.memory

/-- `%02X`. -/
def hex_byte (b : UInt8) : List UInt8 := [Numeral.upper (b.toNat / 16), Numeral.upper (b.toNat % 16)]

def cell_text (cell : UInt8 × UInt8) : List UInt8 :=
  if cell.2 = 0xFF then hex_byte cell.1
  else if cell.2 = 0xF0 then [Numeral.upper ((cell.1 >>> 4) &&& 0xF).toNat, 63]
  else if cell.2 = 0x0F then [63, Numeral.upper (cell.1 &&& 0xF).toNat]
  else [63, 63]

def aob_to_string (p : aob_pattern_t) : List UInt8 := [32].intercalate ((p.bytes.zip p.nibble_mask).map cell_text)

def aob_from_bytes (data : List UInt8) : List UInt8 := [32].intercalate (data.map hex_byte)

/-- The pattern of some bytes. -/
def aob_pattern_t.exact (data : List UInt8) (h : data ≠ []) : aob_pattern_t where
  bytes := data
  nibble_mask := List.replicate data.length 0xFF
  same_length := List.length_replicate
  nonempty := List.length_pos_iff.mpr h

/-- Each half is masked or free, and the free halves hold 0. -/
def Canonical (cell : UInt8 × UInt8) : Prop :=
  (cell.2 = 0x00 ∨ cell.2 = 0x0F ∨ cell.2 = 0xF0 ∨ cell.2 = 0xFF) ∧ cell.1 &&& ~~~cell.2 = 0

section

variable {hi lo : Option Nat} {c c' mask mask' : UInt8} {cell : UInt8 × UInt8} {ts : List (List UInt8)}

theorem compile_half_upper {n : Nat} (hn : n < 16) (half_mask : UInt8) :
    compile_half half_mask (Numeral.upper n) = some (some n, half_mask) := by
  have hdigit : ∀ n < 16, is_wildcard (Numeral.upper n) = false ∧ hex_val (Numeral.upper n) = some n := by decide
  obtain ⟨hwild, hvalue⟩ := hdigit n hn
  rw [compile_half, hwild, if_neg Bool.false_ne_true, hvalue, Option.map_some]

/-- A token of two halves. -/
theorem compile_token_pair (hx : c' ≠ 120 ∧ c' ≠ 88) (hhi : compile_half 0xF0 c = some (hi, mask))
    (hlo : compile_half 0x0F c' = some (lo, mask')) : compile_token [c, c'] = .ok (halves hi lo, mask ||| mask') := by
  have hstrip : Numeral.strip_0x [c, c'] = [c, c'] := by
    unfold Numeral.strip_0x
    split
    · rename_i hsame
      cases hsame
      exact absurd rfl hx.1
    · rename_i hsame
      cases hsame
      exact absurd rfl hx.2
    · rfl
  rw [compile_token, hstrip, if_neg (List.cons_ne_nil _ _)]
  split
  · rename_i hfree
    simp at hfree
    obtain ⟨rfl, rfl⟩ := hfree
    cases hhi
    cases hlo
    rfl
  · dsimp only
    rw [hhi, hlo]

theorem toNat_inj_halves {b : UInt8} (hhi : hi.getD 0 = b.toNat / 16) (hlo : lo.getD 0 = b.toNat % 16) : halves hi lo = b := by
  have hlt := b.toNat_lt
  refine UInt8.toNat_inj.mp ?_
  rw [toNat_halves (by omega) (by omega), hhi, hlo]
  omega

theorem shift_high (b : UInt8) : ((b >>> 4) &&& 0xF).toNat = b.toNat / 16 := by
  have hall : ∀ n < 256, (n >>> 4) &&& 0xF = n / 16 := by decide +kernel
  exact hall _ b.toNat_lt

/-- A half that is written as a digit. -/
theorem upper_ne_x {n : Nat} (hn : n < 16) : Numeral.upper n ≠ 120 ∧ Numeral.upper n ≠ 88 := (Numeral.upper_ne hn).2.2.2

theorem compile_token_cell_text (hcell : Canonical cell) : compile_token (cell_text cell) = .ok cell := by
  obtain ⟨byte, m⟩ := cell
  obtain ⟨hmask, hfree⟩ := hcell
  dsimp only at hmask hfree
  have hhigh : byte.toNat / 16 < 16 := by
    have hlt := byte.toNat_lt
    omega
  have hlow : byte.toNat % 16 < 16 := Nat.mod_lt _ (by omega)
  rcases hmask with rfl | rfl | rfl | rfl
  · have hbyte : byte = 0 := by
      rw [← hfree]
      exact (UInt8.and_neg_one).symm
    subst hbyte
    rfl
  · have hbyte : byte.toNat / 16 * 16 = 0 := by
      rw [← and_high]
      exact congrArg UInt8.toNat hfree
    change compile_token [63, Numeral.upper (byte &&& 0x0F).toNat] = _
    rw [and_low, compile_token_pair (upper_ne_x hlow) rfl (compile_half_upper hlow _),
      toNat_inj_halves (b := byte) (by simp; omega) rfl]
    rfl
  · have hbyte : byte.toNat % 16 = 0 := by
      rw [← and_low]
      exact congrArg UInt8.toNat hfree
    change compile_token [Numeral.upper ((byte >>> 4) &&& 0xF).toNat, 63] = _
    rw [shift_high, compile_token_pair (by decide) (compile_half_upper hhigh _) rfl,
      toNat_inj_halves (b := byte) rfl (by simp; omega)]
    rfl
  · change compile_token (hex_byte byte) = _
    rw [hex_byte, compile_token_pair (upper_ne_x hlow) (compile_half_upper hhigh _) (compile_half_upper hlow _),
      toNat_inj_halves (b := byte) rfl rfl]
    rfl

/-- The text of a value and a mask is one token of two characters. -/
theorem cell_text_eq (cell : UInt8 × UInt8) :
    ∃ c c', cell_text cell = [c, c'] ∧ is_separator c = false ∧ is_separator c' = false := by
  have hdigit : ∀ n < 16, is_separator (Numeral.upper n) = false := by decide
  have hlt := cell.1.toNat_lt
  rw [cell_text]
  split
  · exact ⟨_, _, rfl, hdigit _ (by omega), hdigit _ (by omega)⟩
  split
  · exact ⟨_, _, rfl, hdigit _ (by rw [shift_high]; omega), rfl⟩
  split
  · exact ⟨_, _, rfl, rfl, hdigit _ (by rw [and_low]; omega)⟩
  · exact ⟨_, _, rfl, rfl, rfl⟩

theorem tokenize_append {t : List UInt8} (ht : ∀ c ∈ t, is_separator c = false) (cur text : List UInt8) :
    tokenize cur (t ++ text) = tokenize (cur ++ t) text := by
  induction t generalizing cur with
  | nil => rw [List.append_nil, List.nil_append]
  | cons c t ih =>
    obtain ⟨hc, ht⟩ := List.forall_mem_cons.mp ht
    rw [List.cons_append, tokenize, hc, if_neg Bool.false_ne_true, ih ht, List.append_assoc, List.singleton_append]

theorem tokenize_intercalate (hts : ∀ t ∈ ts, t ≠ [] ∧ ∀ c ∈ t, is_separator c = false) :
    tokenize [] ([32].intercalate ts) = ts := by
  induction ts with
  | nil => rfl
  | cons t ts ih =>
    obtain ⟨⟨hne, ht⟩, hts⟩ := List.forall_mem_cons.mp hts
    cases ts with
    | nil =>
      have htok := tokenize_append ht [] []
      rw [List.append_nil, List.nil_append, tokenize, if_pos hne] at htok
      rwa [List.intercalate_singleton]
    | cons t' ts =>
      rw [List.intercalate_cons_cons, List.append_assoc, tokenize_append ht, List.nil_append, List.singleton_append, tokenize]
      rw [show is_separator 32 = true from rfl, if_pos rfl, if_pos hne, ih hts]

theorem mapM_cell_text {cells : List (UInt8 × UInt8)} (hcells : ∀ cell ∈ cells, Canonical cell) :
    (cells.map cell_text).mapM compile_token = .ok cells := by
  induction cells with
  | nil => rfl
  | cons cell cells ih =>
    obtain ⟨hcell, hcells⟩ := List.forall_mem_cons.mp hcells
    rw [List.map_cons, List.mapM_cons, compile_token_cell_text hcell, ih hcells]
    rfl

theorem pattern_of_zip (p : aob_pattern_t) : pattern_of (p.bytes.zip p.nibble_mask) = .ok p := by
  obtain ⟨bytes, nibble_mask, hlen, hpos⟩ := p
  have hne : bytes.zip nibble_mask ≠ [] := by
    intro hnil
    have hlen' := congrArg List.length hnil
    rw [List.length_zip, hlen, Nat.min_self, List.length_nil] at hlen'
    omega
  rw [pattern_of, dif_neg hne]
  simp only [List.map_fst_zip (Nat.le_of_eq hlen.symm), List.map_snd_zip (Nat.le_of_eq hlen)]

theorem aob_compile_aob_to_string (p : aob_pattern_t) (hp : ∀ cell ∈ p.bytes.zip p.nibble_mask, Canonical cell) :
    aob_compile (aob_to_string p) = .ok p := by
  have htokens : tokenize [] (aob_to_string p) = (p.bytes.zip p.nibble_mask).map cell_text := by
    refine tokenize_intercalate fun t ht => ?_
    obtain ⟨cell, -, rfl⟩ := List.mem_map.mp ht
    obtain ⟨c, c', htext, hc, hc'⟩ := cell_text_eq cell
    rw [htext]
    exact ⟨List.cons_ne_nil _ _, List.forall_mem_cons.mpr ⟨hc, List.forall_mem_singleton.mpr hc'⟩⟩
  have hcompiled := mapM_cell_text hp
  have hpattern := pattern_of_zip p
  have hne : p.bytes.zip p.nibble_mask ≠ [] := by
    intro hnil
    rw [hnil] at hpattern
    cases hpattern
  rw [aob_compile, htokens]
  generalize p.bytes.zip p.nibble_mask = cells at hcompiled hpattern hne
  cases cells with
  | nil => exact absurd rfl hne
  | cons cell cells =>
    rw [List.map_cons] at hcompiled ⊢
    rw [if_neg (List.cons_ne_nil _ _)]
    cases cells with
    | nil =>
      -- two characters are too few for a compact string
      obtain ⟨c, c', htext, -, -⟩ := cell_text_eq cell
      have hcompact : is_compact (if (cell_text cell).length > 2 then Numeral.strip_0x (cell_text cell) else cell_text cell) =
          false := by
        rw [htext]
        rfl
      rw [List.map_nil] at hcompiled ⊢
      dsimp only
      rw [hcompact, Bool.and_false, if_neg Bool.false_ne_true, hcompiled]
      exact hpattern
    | cons cell' cells =>
      rw [List.map_cons] at hcompiled ⊢
      dsimp only
      rw [hcompiled]
      exact hpattern

theorem aob_from_bytes_eq (data : List UInt8) (h : data ≠ []) : aob_from_bytes data = aob_to_string (.exact data h) := by
  have hzip : ∀ data : List UInt8, (data.zip (List.replicate data.length 0xFF)).map cell_text = data.map hex_byte := by
    intro data
    induction data with
    | nil => rfl
    | cons b data ih =>
      rw [List.length_cons, List.replicate_succ, List.zip_cons_cons, List.map_cons, List.map_cons, ih]
      rfl
  rw [aob_from_bytes, aob_to_string, aob_pattern_t.exact, hzip]

theorem canonical_exact {data : List UInt8} : ∀ cell ∈ data.zip (List.replicate data.length 0xFF), Canonical cell := by
  intro cell hcell
  have hmask : cell.2 = 0xFF := List.eq_of_mem_replicate (List.of_mem_zip hcell).2
  refine ⟨.inr (.inr (.inr hmask)), ?_⟩
  rw [hmask]
  exact UInt8.and_zero

end

/-- A pattern is read back from its text, and the pattern of some bytes from theirs. -/
theorem aob_text_round_trip :
    (∀ p : aob_pattern_t, (∀ cell ∈ p.bytes.zip p.nibble_mask, Canonical cell) → aob_compile (aob_to_string p) = .ok p) ∧
      ∀ data h, aob_compile (aob_from_bytes data) = .ok (.exact data h) := by
  refine ⟨aob_compile_aob_to_string, fun data h => ?_⟩
  rw [aob_from_bytes_eq data h]
  exact aob_compile_aob_to_string _ canonical_exact

/-- `41 ?2 ??`, and the bytes of `A`. -/
theorem aob_text_round_trip_mixed :
    aob_compile (aob_to_string ⟨[0x41, 0x02, 0x00], [0xFF, 0x0F, 0x00], rfl, by decide⟩) =
        .ok ⟨[0x41, 0x02, 0x00], [0xFF, 0x0F, 0x00], rfl, by decide⟩ ∧
      aob_compile (aob_from_bytes [0x41]) = .ok (.exact [0x41] (by decide)) := by
  refine ⟨aob_text_round_trip.1 _ ?_, aob_text_round_trip.2 _ _⟩
  simp [Canonical]
  decide

end slop.core.memory
