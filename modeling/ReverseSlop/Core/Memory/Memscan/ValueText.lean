import ReverseSlop.Core.Memory.Memscan.Operands
import ReverseSlop.Library.Literal

namespace slop.core.memory

/-- `%lld`. -/
def print_lld (z : Int) : List UInt8 := if z < 0 then 45 :: Numeral.print 10 z.natAbs else Numeral.print 10 z.natAbs

/-- `print_g` prints a double with a precision as `%g` does. -/
def format_value_text (print_g : Nat → Float → List UInt8) (w : value_width_t) (bits : BitVec 64) : List UInt8 :=
  match w with
  | .i8 | .i16 | .i32 | .i64 => print_lld (sign_extend bits w).toInt
  | .u8 | .u16 | .u32 | .u64 => Numeral.print 10 bits.toNat
  | .f32 => print_g 9 (floating_t.to_double (floating_t.of_bits bits : Float32))
  | .f64 => print_g 17 (floating_t.of_bits bits)

def trim (text : List UInt8) : List UInt8 := (text.dropWhile is_blank).rdropWhile is_blank

namespace integral

/-- A text denotes an integer: a literal behind spaces and a sign, and blanks behind it. -/
def DenotesInt (text : List UInt8) (z : Int) : Prop :=
  ∃ pre sgn lit post negative n, text = pre ++ (sgn ++ lit) ++ post ∧ (∀ c ∈ pre, Numeral.is_space c = true) ∧
    (∀ c ∈ post, is_blank c = true) ∧ Numeral.Sign negative sgn ∧ Numeral.Literal lit n ∧ z = Numeral.signed negative n

/-- The conversion of the 64-bit type takes a text for an integer: the text is not too long for the buffer, nor the
integer for the type, and where the type has no sign the text does not begin with one. -/
def Taken (w : value_width_t) (text : List UInt8) (z : Int) : Prop :=
  (trim text).length < 64 ∧
    if width_is_signed w then -2 ^ 63 ≤ z ∧ z < 2 ^ 63 else (trim text).head? ≠ some 45 ∧ z.natAbs < 2 ^ 64

def InRange (w : value_width_t) (z : Int) : Prop := lowest w ≤ z ∧ z ≤ highest w

/-- A text is taken for an integer that the width does not have. -/
def Reduced (w : value_width_t) (text : List UInt8) : Prop := ∃ z, DenotesInt text z ∧ Taken w text z ∧ ¬ InRange w z

section

variable {strtod : List UInt8 → Float × List UInt8} {w : value_width_t} {text : List UInt8} {z z' : Int} {b bits : BitVec 64}

private theorem is_space_of_blank {c : UInt8} (hc : is_blank c = true) : Numeral.is_space c = true := by
  rcases (Bool.or_eq_true _ _).mp hc with hc | hc <;> rw [of_decide_eq_true hc] <;> rfl

private theorem not_blank {c : UInt8} (hc : Numeral.is_space c = false) : ¬ is_blank c = true := by
  intro hblank
  rw [is_space_of_blank hblank] at hc
  cases hc

/-- Behind its spaces a denoted integer begins and ends with no blank. -/
theorem trim_eq {pre sgn lit post : List UInt8} {negative : Bool} {n : Nat} (hpost : ∀ c ∈ post, is_blank c = true)
    (hsign : Numeral.Sign negative sgn) (hlit : Numeral.Literal lit n) :
    trim (pre ++ (sgn ++ lit) ++ post) = pre.dropWhile is_blank ++ (sgn ++ lit) := by
  obtain ⟨c, rest, hhead, hc⟩ := hlit.head
  obtain ⟨hne, hall⟩ := hlit.digit_isSome
  have hfront : (pre ++ (sgn ++ lit) ++ post).dropWhile is_blank = pre.dropWhile is_blank ++ (sgn ++ lit) ++ post := by
    obtain ⟨a, l, hal, ha⟩ := hsign.head_not_space hc rest
    rw [hhead, hal, List.append_assoc, List.append_assoc, List.dropWhile_append]
    split
    · rename_i hempty
      rw [List.isEmpty_iff.mp hempty, List.nil_append, List.cons_append, List.dropWhile_cons_of_neg (not_blank ha)]
    · rfl
  have hlast : ¬ is_blank (lit.getLast hne) = true :=
    not_blank (Numeral.not_space_of_digit (hall _ (List.getLast_mem hne))).1
  rw [trim, hfront, List.rdropWhile, List.reverse_append, List.dropWhile_append_of_pos (fun c hc => hpost c (List.mem_reverse.mp hc)),
    ← List.rdropWhile, List.rdropWhile_eq_self_iff]
  intro hl
  rwa [List.getLast_append_of_ne_nil _ (by simp [hne]), List.getLast_append_of_ne_nil _ hne]

private theorem split_trim (text : List UInt8) : ∃ pre post, text = pre ++ trim text ++ post ∧ (∀ c ∈ pre, is_blank c = true) ∧
    ∀ c ∈ post, is_blank c = true := by
  refine ⟨text.takeWhile is_blank, (text.dropWhile is_blank).rtakeWhile is_blank, ?_,
    fun c hc => List.mem_takeWhile_imp hc, fun c hc => List.mem_rtakeWhile_imp hc⟩
  rw [trim, List.append_assoc, List.rdropWhile_append_rtakeWhile, List.takeWhile_append_dropWhile]

/-- What a text denotes is what is read of it when it is read to its end. -/
theorem denotesInt_iff : DenotesInt text z ↔ trim text ≠ [] ∧ (Numeral.strto (trim text)).2.2 = [] ∧
    z = Numeral.signed (Numeral.strto (trim text)).1 (Numeral.strto (trim text)).2.1 := by
  constructor
  · rintro ⟨pre, sgn, lit, post, negative, n, rfl, hpre, hpost, hsign, hlit, rfl⟩
    have hspaces : ∀ c ∈ pre.dropWhile is_blank, Numeral.is_space c = true :=
      fun c hc => hpre c ((List.dropWhile_sublist _).subset hc)
    have hread := Numeral.strto_literal hspaces hsign hlit
    rw [trim_eq hpost hsign hlit, hread]
    refine ⟨?_, rfl, rfl⟩
    simp [hlit.digit_isSome.1]
  · rintro ⟨hne, hend, rfl⟩
    obtain ⟨pre, post, htext, hpre, hpost⟩ := split_trim text
    obtain ⟨pre', sgn, lit, hsplit, hpre', hsign, hlit⟩ :=
      Numeral.literal_of_strto (s := trim text) (Prod.ext rfl (Prod.ext rfl hend)) hne
    refine ⟨pre ++ pre', sgn, lit, post, _, _, ?_, ?_, hpost, hsign, hlit, rfl⟩
    · rw [List.append_assoc pre, ← hsplit]
      exact htext
    · exact List.forall_mem_append.mpr ⟨fun c hc => is_space_of_blank (hpre c hc), hpre'⟩

private theorem DenotesInt.unique (h : DenotesInt text z) (h' : DenotesInt text z') : z = z' :=
  (denotesInt_iff.mp h).2.2.trans (denotesInt_iff.mp h').2.2.symm

private theorem natAbs_signed (negative : Bool) (n : Nat) : (Numeral.signed negative n).natAbs = n := by
  cases negative
  · rfl
  · exact Int.natAbs_neg _

/-- A text of an integer width is accepted exactly if it denotes an integer that is taken. -/
theorem parse_value_text_iff (hw : width_is_float w = false) :
    parse_value_text strtod w text = some b ↔ ∃ z, DenotesInt text z ∧ Taken w text z ∧ mask_bits w (BitVec.ofInt 64 z) = b := by
  have hnat := natAbs_signed (Numeral.strto (trim text)).1 (Numeral.strto (trim text)).2.1
  have hshape : parse_value_text strtod w text =
      if trim text = [] ∨ (trim text).length ≥ 64 then none
      else if width_is_signed w then
        if Numeral.signed (Numeral.strto (trim text)).1 (Numeral.strto (trim text)).2.1 < -2 ^ 63 ∨
            Numeral.signed (Numeral.strto (trim text)).1 (Numeral.strto (trim text)).2.1 ≥ 2 ^ 63 ∨
            (Numeral.strto (trim text)).2.2 ≠ [] then none
        else some (mask_bits w (BitVec.ofInt 64 (Numeral.signed (Numeral.strto (trim text)).1 (Numeral.strto (trim text)).2.1)))
      else if (trim text).head? = some 45 then none
      else if (Numeral.strto (trim text)).2.1 ≥ 2 ^ 64 ∨ (Numeral.strto (trim text)).2.2 ≠ [] then none
      else some (mask_bits w (BitVec.ofInt 64 (Numeral.signed (Numeral.strto (trim text)).1 (Numeral.strto (trim text)).2.1))) := by
    rw [parse_value_text]
    simp only [hw, Bool.false_eq_true, if_false]
    rfl
  rw [hshape]
  simp only [denotesInt_iff, Taken]
  generalize (Numeral.strto (trim text)).1 = negative at hnat ⊢
  generalize (Numeral.strto (trim text)).2.1 = n at hnat ⊢
  generalize (Numeral.strto (trim text)).2.2 = rest at hnat ⊢
  generalize trim text = t at hnat ⊢
  generalize Numeral.signed negative n = z at hnat ⊢
  by_cases hlen : t = [] ∨ t.length ≥ 64
  · rw [if_pos hlen]
    constructor
    · intro h
      cases h
    · rintro ⟨z', ⟨hne, -, -⟩, ⟨hlt, -⟩, -⟩
      rcases hlen with hnil | hlong
      · exact absurd hnil hne
      · omega
  · rw [if_neg hlen]
    obtain ⟨hne, hshort⟩ := not_or.mp hlen
    cases width_is_signed w with
    | true => grind
    | false => grind

private theorem mask_bits_ofInt (w : value_width_t) (z : Int) :
    mask_bits w (BitVec.ofInt 64 z) = (BitVec.ofInt (8 * value_size w) z).setWidth 64 := by
  have hsize : 8 * value_size w ≤ 64 := by cases w <;> decide
  have hle : 2 ^ (8 * value_size w) ≤ 2 ^ 64 := Nat.pow_le_pow_right (by omega) hsize
  have hdvd : ((2 ^ (8 * value_size w) : Nat) : Int) ∣ ((2 ^ 64 : Nat) : Int) := Int.natCast_dvd_natCast.mpr (Nat.pow_dvd_pow 2 hsize)
  refine BitVec.eq_of_toNat_eq ?_
  rw [toNat_mask_bits, BitVec.toNat_ofInt, BitVec.toNat_setWidth, BitVec.toNat_ofInt]
  have hmod := Int.emod_emod_of_dvd z hdvd
  have hpos : 0 < 2 ^ (8 * value_size w) := Nat.pow_pos (by omega)
  generalize 2 ^ (8 * value_size w) = size at hle hmod hpos ⊢
  have hlt : z % (size : Int) < size := Int.emod_lt_of_pos z (by omega)
  have hnonneg : 0 ≤ z % ((2 ^ 64 : Nat) : Int) := Int.emod_nonneg z (by decide)
  rw [Nat.mod_eq_of_lt (show (z % (size : Int)).toNat < 2 ^ 64 by omega), ← hmod,
    Int.toNat_emod hnonneg (by omega), Int.toNat_natCast]

/-- An integer of the width is kept by the conversion. -/
theorem value_mask_bits (hz : InRange w z) : Fits w (mask_bits w (BitVec.ofInt 64 z)) ∧ value w (mask_bits w (BitVec.ofInt 64 z)) = z := by
  obtain ⟨bits, hbits, hfits, hvalue⟩ := value_from_double_spec hz
  rw [mask_bits_ofInt]
  cases (if_pos hz).symm.trans hbits
  exact ⟨hfits, hvalue⟩

private theorem length_print_le {n : Nat} (hn : n < 2 ^ 64) : (Numeral.print 10 n).length ≤ 20 := by
  rw [Numeral.print]
  split
  · decide
  · rw [List.length_map, List.length_reverse, Nat.digits_length_le_iff (by decide)]
    omega

/-- A printed integer is a literal behind a sign. -/
theorem print_lld_eq (z : Int) : ∃ sgn negative, print_lld z = sgn ++ Numeral.print 10 z.natAbs ∧ Numeral.Sign negative sgn ∧
    z = Numeral.signed negative z.natAbs := by
  rw [print_lld]
  split
  · refine ⟨[45], true, rfl, .inl ⟨rfl, rfl⟩, ?_⟩
    change z = -(z.natAbs : Int)
    omega
  · refine ⟨[], false, rfl, .inr ⟨rfl, .inl rfl⟩, ?_⟩
    change z = (z.natAbs : Int)
    omega

private theorem denotesInt_print_lld (z : Int) : DenotesInt (print_lld z) z := by
  obtain ⟨sgn, negative, htext, hsign, hz⟩ := print_lld_eq z
  have hnil : ∀ p : UInt8 → Prop, ∀ c ∈ ([] : List UInt8), p c := fun p c hc => absurd hc List.not_mem_nil
  exact ⟨[], sgn, _, [], negative, _, by rw [List.append_nil]; exact htext, hnil _, hnil _, hsign, Numeral.literal_print _, hz⟩

private theorem trim_print_lld (z : Int) : trim (print_lld z) = print_lld z := by
  obtain ⟨sgn, negative, htext, hsign, -⟩ := print_lld_eq z
  have hnil : ∀ c ∈ ([] : List UInt8), is_blank c = true := fun c hc => absurd hc List.not_mem_nil
  have htrim : trim ([] ++ (sgn ++ Numeral.print 10 z.natAbs) ++ []) = _ := trim_eq hnil hsign (Numeral.literal_print z.natAbs)
  rw [List.append_nil] at htrim
  rw [htext]
  exact htrim

private theorem format_eq (print_g : Nat → Float → List UInt8) (hw : width_is_float w = false) (bits : BitVec 64) :
    format_value_text print_g w bits = print_lld (value w bits) := by
  have hunsigned : ∀ n : Nat, Numeral.print 10 n = print_lld n := by
    intro n
    rw [print_lld, if_neg (by omega), Int.natAbs_natCast]
  cases w with
  | i8 | i16 | i32 | i64 => rfl
  | u8 | u16 | u32 | u64 => exact hunsigned _
  | f32 | f64 => cases hw

/-- A printed integer of the width is short, and begins with a sign only if the width has one. -/
theorem taken_print_lld (hz : InRange w z) : Taken w (print_lld z) z := by
  have hrange : (width_is_signed w = true → -2 ^ 63 ≤ z ∧ z < 2 ^ 63) ∧ (width_is_signed w = false → 0 ≤ z ∧ z < 2 ^ 64) := by
    obtain ⟨hlow, hhigh⟩ := hz
    rw [lowest] at hlow
    rw [highest] at hhigh
    cases w <;> simp [width_is_signed, value_size] at hlow hhigh ⊢ <;> omega
  have habs : z.natAbs < 2 ^ 64 := by
    cases hsigned : width_is_signed w with
    | true =>
      have h := hrange.1 hsigned
      omega
    | false =>
      have h := hrange.2 hsigned
      omega
  have hlen := length_print_le habs
  obtain ⟨sgn, negative, htext, hsign, hz⟩ := print_lld_eq z
  rw [Taken, trim_print_lld]
  constructor
  · have hsgn : sgn.length ≤ 1 := by rcases hsign with ⟨-, rfl⟩ | ⟨-, rfl | rfl⟩ <;> decide
    rw [htext, List.length_append]
    omega
  · split
    · exact hrange.1 ‹_›
    · rename_i hsigned
      refine ⟨fun hhead => ?_, habs⟩
      rw [print_lld, if_neg (Int.not_lt.mpr (hrange.2 (eq_false_of_ne_true hsigned)).1)] at hhead
      obtain ⟨c, rest, hprint, hc⟩ := (Numeral.literal_print z.natAbs).head
      rw [hprint] at hhead
      exact (Numeral.not_space_of_digit hc).2.1 (Option.some.inj hhead)

end

/-- A value is read back from its text. A text is taken for the integer that it denotes, and for none if it denotes
none, unless the width lacks an integer that the 64-bit conversion takes. -/
theorem value_text (strtod : List UInt8 → Float × List UInt8) (print_g : Nat → Float → List UInt8) (w : value_width_t)
    (hw : width_is_float w = false) :
    (∀ bits, Fits w bits → parse_value_text strtod w (format_value_text print_g w bits) = some bits) ∧
      ∀ text, (∀ bits, parse_value_text strtod w text = some bits → ∃ z, DenotesInt text z ∧ InRange w z ∧ value w bits = z) ↔
        ¬ Reduced w text := by
  constructor
  · intro bits hbits
    have hrange := value_mem_range hbits
    obtain ⟨hfits, hvalue⟩ := value_mask_bits hrange
    rw [format_eq print_g hw, parse_value_text_iff hw]
    exact ⟨_, denotesInt_print_lld _, taken_print_lld hrange, value_injective hfits hbits hvalue⟩
  · intro text
    constructor
    · rintro hall ⟨z, hdenotes, htaken, hout⟩
      obtain ⟨z', hdenotes', hrange, -⟩ := hall _ ((parse_value_text_iff hw).mpr ⟨z, hdenotes, htaken, rfl⟩)
      rw [hdenotes'.unique hdenotes] at hrange
      exact hout hrange
    · intro hkept bits hparse
      obtain ⟨z, hdenotes, htaken, rfl⟩ := (parse_value_text_iff hw).mp hparse
      have hrange : InRange w z := by
        by_contra hout
        exact hkept ⟨z, hdenotes, htaken, hout⟩
      exact ⟨z, hdenotes, hrange, (value_mask_bits hrange).2⟩

theorem value_text_u8 :
    (∀ bits, Fits .u8 bits →
        parse_value_text (fun s => (0, s)) .u8 (format_value_text (fun _ _ => []) .u8 bits) = some bits) ∧
      ∀ text, (∀ bits, parse_value_text (fun s => (0, s)) .u8 text = some bits →
        ∃ z, DenotesInt text z ∧ InRange .u8 z ∧ value .u8 bits = z) ↔ ¬ Reduced .u8 text :=
  value_text _ _ .u8 rfl

/-- `256` is accepted as a byte. -/
theorem large_text_reduced :
    ¬ ∀ strtod w text bits, width_is_float w = false → parse_value_text strtod w text = some bits →
      ∃ z, DenotesInt text z ∧ InRange w z := by
  intro hall
  obtain ⟨z, hdenotes, hrange⟩ := hall (fun s => (0, s)) .u8 [50, 53, 54] 0 rfl rfl
  have hz : z = 256 := (denotesInt_iff.mp hdenotes).2.2
  rw [hz] at hrange
  exact absurd hrange.2 (by decide)

end integral

end slop.core.memory
