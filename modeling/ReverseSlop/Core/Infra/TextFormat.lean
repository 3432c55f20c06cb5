import ReverseSlop.Library.Encoding

namespace slop.core.infra.fmt

inductive copy_dialect_t where
  | hex_space | hex_nospace | c_array | python_bytes | rust_array | raw_string
  deriving DecidableEq

/-- A byte as `%02X` or `%02x` prints it. -/
def hex_byte (uppercase : Bool) (b : UInt8) : List Char :=
  Hex.encode (if uppercase then Hex.upper else Hex.lower) [b]

def format_hex (data : List UInt8) (uppercase : Bool) : List Char := List.intercalate [' '] (data.map (hex_byte uppercase))

def format_as (data : List UInt8) : copy_dialect_t → List Char
  | .hex_space => format_hex data true
  | .hex_nospace => data.flatMap (hex_byte true)
  | .c_array => "\x7b ".toList ++ List.intercalate ", ".toList (data.map fun b => "0x".toList ++ hex_byte true b) ++ " \x7d".toList
  | .python_bytes => "b'".toList ++ (data.flatMap fun b => "\\x".toList ++ hex_byte true b) ++ "'".toList
  | .rust_array => "[".toList ++ List.intercalate ", ".toList (data.map fun b => "0x".toList ++ hex_byte true b) ++ "]".toList
  | .raw_string => data.flatMap fun b =>
      if b ≥ 0x20 ∧ b < 0x7F then [Char.ofNat b.toNat] else "\\x".toList ++ hex_byte true b

def is_stripped (c : Char) : Bool := c = ' ' || c = '\t' || c = '\n' || c = '\r' || c = ','

def is_x (c : Char) : Bool := c = 'x' || c = 'X'

/-- The digits of a text without whitespace, commas and the prefixes `0x` and `\x`. -/
def strip : List Char → Except (List Char) (List Char)
  | [] => .ok []
  | [c] =>
    if is_stripped c then .ok []
    else if (Hex.value c).isNone then .error ("invalid hex character '".toList ++ [c] ++ "'".toList)
    else .ok [c]
  | c :: x :: rest =>
    if is_stripped c then strip (x :: rest)
    else if (c = '0' ∨ c = '\\') ∧ is_x x then strip rest
    else if (Hex.value c).isNone then .error ("invalid hex character '".toList ++ [c] ++ "'".toList)
    else do return c :: (← strip (x :: rest))

/-- The bytes of a text, or the error. -/
def parse_hex (text : List Char) : Except (List Char) (List UInt8) := do
  let clean ← strip text
  if clean.length % 2 ≠ 0 then throw "odd number of hex digits".toList
  return Hex.pairs (clean.filterMap Hex.value)

def kTable : List Char := "ABCDEFGHIJKLMNOPQRSTUVWXYZabcdefghijklmnopqrstuvwxyz0123456789+/".toList

def table_char (v : UInt32) : Char := kTable.getD (v &&& 63).toNat '='

/-- The three bytes of a group in one word. -/
def group_word (a b c : UInt8) : UInt32 := a.toUInt32 <<< 16 ||| b.toUInt32 <<< 8 ||| c.toUInt32

def base64_group (a : UInt8) (b c : Option UInt8) : List Char :=
  let v := group_word a (b.getD 0) (c.getD 0)
  [table_char (v >>> 18), table_char (v >>> 12), if b.isSome then table_char (v >>> 6) else '=',
    if c.isSome then table_char v else '=']

def base64 : List UInt8 → List Char
  | [] => []
  | [a] => base64_group a none none
  | [a, b] => base64_group a (some b) none
  | a :: b :: c :: rest => base64_group a (some b) (some c) ++ base64 rest

section

variable {text : List Char} {c : Char}

theorem not_x_of_value (hc : (Hex.value c).isSome = true) : is_x c = false := by
  simp only [is_x, Bool.or_eq_false_iff, decide_eq_false_iff_not]
  constructor
  · intro heq
    rw [heq] at hc
    exact absurd hc (by decide)
  · intro heq
    rw [heq] at hc
    exact absurd hc (by decide)

theorem not_stripped_of_value (hc : (Hex.value c).isSome = true) : is_stripped c = false ∧ c ≠ ' ' := by
  have hne : ∀ d, Hex.value d = none → c ≠ d := by
    intro d hd heq
    rw [heq, hd] at hc
    cases hc
  simp [is_stripped, hne ' ' (by decide), hne '\t' (by decide), hne '\n' (by decide), hne '\r' (by decide), hne ',' (by decide)]

/-- In a text of digits and blanks no prefix is stripped. -/
theorem strip_digits (htext : ∀ c ∈ text, c = ' ' ∨ (Hex.value c).isSome = true) :
    strip text = .ok (text.filter (· ≠ ' ')) := by
  have hx : ∀ c ∈ text, is_x c = false := by
    intro c hc
    obtain heq | hdigit := htext c hc
    · simp [heq, is_x]
    · exact not_x_of_value hdigit
  induction text using strip.induct with
  | case1 => simp [strip]
  | case2 c hblank =>
    obtain heq | hdigit := htext c (by simp)
    · simp [strip, heq, is_stripped]
    · simp [(not_stripped_of_value hdigit).1] at hblank
  | case3 c hblank hbad =>
    obtain heq | hdigit := htext c (by simp)
    · simp [heq, is_stripped] at hblank
    · simp [Option.isSome_iff_ne_none] at hdigit hbad
      exact absurd hbad hdigit
  | case4 c hblank hgood =>
    obtain heq | hdigit := htext c (by simp)
    · simp [heq, is_stripped] at hblank
    · simp [strip, hblank, hgood, (not_stripped_of_value hdigit).2]
  | case5 c x rest hblank ih =>
    obtain heq | hdigit := htext c (by simp)
    · rw [strip, if_pos hblank, ih (fun d hd => htext d (List.mem_cons_of_mem c hd)) fun d hd => hx d (List.mem_cons_of_mem c hd)]
      simp [heq]
    · simp [(not_stripped_of_value hdigit).1] at hblank
  | case6 c x rest hblank hpre ih => simp [hx x (by simp)] at hpre
  | case7 c x rest hblank hpre hbad =>
    obtain heq | hdigit := htext c (by simp)
    · simp [heq, is_stripped] at hblank
    · simp [Option.isSome_iff_ne_none] at hdigit hbad
      exact absurd hbad hdigit
  | case8 c x rest hblank hpre hgood ih =>
    obtain heq | hdigit := htext c (by simp)
    · simp [heq, is_stripped] at hblank
    · rw [strip, if_neg hblank, if_neg hpre, if_neg hgood,
        ih (fun d hd => htext d (List.mem_cons_of_mem c hd)) fun d hd => hx d (List.mem_cons_of_mem c hd)]
      simp [(not_stripped_of_value hdigit).2]

theorem hex_byte_digits (uppercase : Bool) (b : UInt8) : ∀ c ∈ hex_byte uppercase b, (Hex.value c).isSome = true := by
  cases uppercase with
  | true => exact Hex.encode_digits Hex.value_upper [b]
  | false => exact Hex.encode_digits Hex.value_lower [b]

theorem filter_hex_byte (uppercase : Bool) (b : UInt8) : (hex_byte uppercase b).filter (· ≠ ' ') = hex_byte uppercase b := by
  rw [List.filter_eq_self]
  intro c hc
  simpa using (not_stripped_of_value (hex_byte_digits uppercase b c hc)).2

/-- The digits of all bytes are read back. -/
theorem pairs_hex_bytes (uppercase : Bool) (data : List UInt8) :
    Hex.pairs ((data.flatMap (hex_byte uppercase)).filterMap Hex.value) = data ∧
      (data.flatMap (hex_byte uppercase)).length % 2 = 0 := by
  have hencode : data.flatMap (hex_byte uppercase) = Hex.encode (if uppercase then Hex.upper else Hex.lower) data := by
    rw [Hex.encode]
    congr 1
  rw [hencode, Hex.length_encode]
  refine ⟨?_, by omega⟩
  cases uppercase with
  | true => exact Hex.pairs_encode Hex.value_upper data
  | false => exact Hex.pairs_encode Hex.value_lower data

/-- A text of which the digits of the bytes are left without blanks is read as those bytes. -/
theorem parse_hex_bytes {data : List UInt8} {uppercase : Bool} (htext : ∀ c ∈ text, c = ' ' ∨ (Hex.value c).isSome = true)
    (hdigits : text.filter (· ≠ ' ') = data.flatMap (hex_byte uppercase)) : parse_hex text = .ok data := by
  obtain ⟨hpairs, heven⟩ := pairs_hex_bytes uppercase data
  rw [parse_hex, strip_digits htext, hdigits]
  simp only [bind, Except.bind, ne_eq, heven, not_true_eq_false, if_false, hpairs, pure, Except.pure]

/-- The text is made of the digits and of blanks between them. -/
theorem format_hex_chars (data : List UInt8) (uppercase : Bool) :
    (∀ c ∈ format_hex data uppercase, c = ' ' ∨ (Hex.value c).isSome = true) ∧
      (format_hex data uppercase).filter (· ≠ ' ') = data.flatMap (hex_byte uppercase) := by
  induction data with
  | nil => simp [format_hex]
  | cons b data ih =>
    have hbyte := hex_byte_digits uppercase b
    have hfilter := filter_hex_byte uppercase b
    cases data with
    | nil =>
      have htext : format_hex [b] uppercase = hex_byte uppercase b := by simp [format_hex]
      rw [htext, hfilter]
      exact ⟨fun c hc => .inr (hbyte c hc), by simp⟩
    | cons next data =>
      have htext : format_hex (b :: next :: data) uppercase =
          hex_byte uppercase b ++ ' ' :: format_hex (next :: data) uppercase := by
        simp [format_hex, List.intercalate]
      rw [htext, List.filter_append, List.filter_cons_of_neg (by simp), hfilter, ih.2, List.flatMap_cons]
      refine ⟨fun c hc => ?_, by simp⟩
      obtain hc | hc := List.mem_append.mp hc
      · exact .inr (hbyte c hc)
      · obtain heq | hc := List.mem_cons.mp hc
        · exact .inl heq
        · exact ih.1 c hc

/-- Hex that was formatted is read back. -/
theorem parse_hex_format_hex (data : List UInt8) (uppercase : Bool) : parse_hex (format_hex data uppercase) = .ok data := by
  obtain ⟨htext, hdigits⟩ := format_hex_chars data uppercase
  exact parse_hex_bytes htext hdigits

theorem parse_hex_compact (data : List UInt8) : parse_hex (format_as data .hex_nospace) = .ok data := by
  have hdigits : ∀ c ∈ format_as data .hex_nospace, (Hex.value c).isSome = true := by
    intro c hc
    obtain ⟨b, -, hb⟩ := List.mem_flatMap.mp hc
    exact hex_byte_digits true b c hb
  have hbytes : (format_as data .hex_nospace).filter (· ≠ ' ') = data.flatMap (hex_byte true) := by
    rw [List.filter_eq_self.mpr]
    · simp [format_as]
    · intro c hc
      simpa using (not_stripped_of_value (hdigits c hc)).2
  exact parse_hex_bytes (fun c hc => .inr (hdigits c hc)) hbytes

end

section

variable {a b c : UInt8}

theorem value_kTable : ∀ i < 64, Base64.value (kTable.getD i '=') = some i := by decide +kernel

theorem value_table_char (v : UInt32) : Base64.value (table_char v) = some (v.toNat % 64) := by
  have hmask : (v &&& 63).toNat = v.toNat % 64 := by
    rw [UInt32.toNat_and]
    exact Nat.and_two_pow_sub_one_eq_mod v.toNat 6
  rw [table_char, hmask]
  exact value_kTable _ (Nat.mod_lt _ (by omega))

theorem toNat_group_word (a b c : UInt8) : (group_word a b c).toNat = (a.toNat * 256 + b.toNat) * 256 + c.toNat := by
  have ha := a.toNat_lt
  have hb := b.toNat_lt
  have hc := c.toNat_lt
  have hhigh : (a.toUInt32 <<< 16).toNat = a.toNat * 2 ^ 16 := by
    rw [UInt32.toNat_shiftLeft, UInt8.toNat_toUInt32, Nat.shiftLeft_eq]
    simp
    omega
  have hmiddle : (b.toUInt32 <<< 8).toNat = b.toNat * 2 ^ 8 := by
    rw [UInt32.toNat_shiftLeft, UInt8.toNat_toUInt32, Nat.shiftLeft_eq]
    simp
    omega
  have hor : (a.toNat * 2 ^ 16 ||| b.toNat * 2 ^ 8) = (a.toNat * 2 ^ 8 + b.toNat) * 2 ^ 8 := by
    rw [← Nat.shiftLeft_eq, ← Nat.shiftLeft_add_eq_or_of_lt (by omega), Nat.shiftLeft_eq]
    omega
  rw [group_word, UInt32.toNat_or, UInt32.toNat_or, hhigh, hmiddle, hor, UInt8.toNat_toUInt32, ← Nat.shiftLeft_eq,
    ← Nat.shiftLeft_add_eq_or_of_lt (by omega), Nat.shiftLeft_eq]
  omega

theorem toNat_shiftRight_word (v : UInt32) : (v >>> 18).toNat = v.toNat / 2 ^ 18 ∧ (v >>> 12).toNat = v.toNat / 2 ^ 12 ∧
    (v >>> 6).toNat = v.toNat / 2 ^ 6 := by
  simp [UInt32.toNat_shiftRight, Nat.shiftRight_eq_div_pow]

/-- A group is decoded to its bytes. -/
theorem decode_group_one (a : UInt8) : Base64.decode (base64_group a none none) = some [a] := by
  have ha := a.toNat_lt
  obtain ⟨hx, hy, -⟩ := toNat_shiftRight_word (group_word a 0 0)
  have hword := toNat_group_word a 0 0
  simp only [UInt8.toNat_zero] at hword
  have hfirst := value_table_char (group_word a 0 0 >>> 18)
  have hsecond := value_table_char (group_word a 0 0 >>> 12)
  simp only [base64_group, Option.getD_none, Option.isSome_none, Bool.false_eq_true, if_false, Base64.decode]
  rw [Base64.decode_last_one hfirst hsecond (by omega), Base64.byte_eq (v := a) (by omega)]

theorem decode_group_two (a b : UInt8) : Base64.decode (base64_group a (some b) none) = some [a, b] := by
  have ha := a.toNat_lt
  have hb := b.toNat_lt
  obtain ⟨hx, hy, hz⟩ := toNat_shiftRight_word (group_word a b 0)
  have hword := toNat_group_word a b 0
  simp only [UInt8.toNat_zero] at hword
  have hfirst := value_table_char (group_word a b 0 >>> 18)
  have hsecond := value_table_char (group_word a b 0 >>> 12)
  have hthird := value_table_char (group_word a b 0 >>> 6)
  simp only [base64_group, Option.getD_some, Option.getD_none, Option.isSome_some, Option.isSome_none, Bool.false_eq_true, if_true,
    if_false, Base64.decode]
  rw [Base64.decode_last_two hfirst hsecond hthird (by omega), Base64.byte_eq (v := a) (by omega),
    Base64.byte_eq (v := b) (by omega)]

theorem decode_group_three (a b c : UInt8) {rest : List Char} {others : List UInt8} (hrest : Base64.decode rest = some others) :
    Base64.decode (base64_group a (some b) (some c) ++ rest) = some (a :: b :: c :: others) := by
  have ha := a.toNat_lt
  have hb := b.toNat_lt
  have hc := c.toNat_lt
  obtain ⟨hx, hy, hz⟩ := toNat_shiftRight_word (group_word a b c)
  have hword := toNat_group_word a b c
  have hfirst := value_table_char (group_word a b c >>> 18)
  have hsecond := value_table_char (group_word a b c >>> 12)
  have hthird := value_table_char (group_word a b c >>> 6)
  have hfourth := value_table_char (group_word a b c)
  simp only [base64_group, Option.getD_some, Option.isSome_some, if_true, List.cons_append, List.nil_append]
  rw [Base64.decode_append hthird hfourth (Base64.decode_last_three hfirst hsecond hthird hfourth) hrest,
    Base64.byte_eq (v := a) (by omega), Base64.byte_eq (v := b) (by omega), Base64.byte_eq (v := c) (by omega)]
  simp

theorem decode_base64 (data : List UInt8) : Base64.decode (base64 data) = some data := by
  induction data using base64.induct with
  | case1 => simp [base64, Base64.decode]
  | case2 a => rw [base64, decode_group_one]
  | case3 a b => rw [base64, decode_group_two]
  | case4 a b c rest ih => rw [base64, decode_group_three a b c ih]

end

/-- What is written as hex or in base 64 is read back. -/
theorem text_round_trip (data : List UInt8) :
    (∀ uppercase, parse_hex (format_hex data uppercase) = .ok data) ∧
      (∀ dialect, dialect = .hex_space ∨ dialect = .hex_nospace → parse_hex (format_as data dialect) = .ok data) ∧
      Base64.decode (base64 data) = some data := by
  refine ⟨parse_hex_format_hex data, ?_, decode_base64 data⟩
  intro dialect hdialect
  obtain rfl | rfl := hdialect
  · exact parse_hex_format_hex data true
  · exact parse_hex_compact data

end slop.core.infra.fmt
