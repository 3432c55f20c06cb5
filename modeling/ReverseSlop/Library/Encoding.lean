import Mathlib.Data.List.Basic
import Mathlib.Data.Nat.Bitwise

namespace Hex

/-- The value of a hex digit of either case. -/
def value (c : Char) : Option Nat :=
  if '0' ≤ c ∧ c ≤ '9' then some (c.toNat - '0'.toNat)
  else if 'a' ≤ c ∧ c ≤ 'f' then some (c.toNat - 'a'.toNat + 10)
  else if 'A' ≤ c ∧ c ≤ 'F' then some (c.toNat - 'A'.toNat + 10)
  else none

def lower (d : Nat) : Char := "0123456789abcdef".toList.getD d '0'

def upper (d : Nat) : Char := "0123456789ABCDEF".toList.getD d '0'

/-- Two digits for each byte, the high half first. -/
def encode (digit : Nat → Char) (data : List UInt8) : List Char :=
  data.flatMap fun b => [digit (b.toNat / 16), digit (b.toNat % 16)]

/-- The bytes behind pairs of digits; a last digit without a partner is dropped. -/
def pairs : List Nat → List UInt8
  | hi :: lo :: rest => UInt8.ofNat (hi * 16 + lo) :: pairs rest
  | _ => []

section

variable {digit : Nat → Char}

theorem value_lower {d : Nat} (hd : d < 16) : value (lower d) = some d := by
  revert d
  decide

theorem value_upper {d : Nat} (hd : d < 16) : value (upper d) = some d := by
  revert d
  decide

theorem byte_halves (b : UInt8) : UInt8.ofNat (b.toNat / 16 * 16 + b.toNat % 16) = b := by
  rw [Nat.div_add_mod', UInt8.ofNat_toNat]

theorem high_lt (b : UInt8) : b.toNat / 16 < 16 := by
  have hlt := b.toNat_lt
  omega

theorem low_lt (b : UInt8) : b.toNat % 16 < 16 := Nat.mod_lt _ (by omega)

/-- Reading what was written gives the bytes back. -/
theorem pairs_encode (hdigit : ∀ {d}, d < 16 → value (digit d) = some d) (data : List UInt8) :
    pairs ((encode digit data).filterMap value) = data := by
  induction data with
  | nil => rfl
  | cons b data ih =>
    have hvalues : (encode digit (b :: data)).filterMap value =
        b.toNat / 16 :: b.toNat % 16 :: (encode digit data).filterMap value := by
      simp [encode, hdigit (high_lt b), hdigit (low_lt b)]
    rw [hvalues, pairs, byte_halves, ih]

theorem encode_digits (hdigit : ∀ {d}, d < 16 → value (digit d) = some d) (data : List UInt8) :
    ∀ c ∈ encode digit data, (value c).isSome = true := by
  intro c hc
  obtain ⟨b, -, hb⟩ := List.mem_flatMap.mp hc
  obtain rfl | hlow := List.mem_cons.mp hb
  · rw [hdigit (high_lt b), Option.isSome_some]
  · rw [List.mem_singleton.mp hlow, hdigit (low_lt b), Option.isSome_some]

theorem length_encode (digit : Nat → Char) (data : List UInt8) : (encode digit data).length = 2 * data.length := by
  induction data with
  | nil => rfl
  | cons b data ih =>
    rw [encode, List.flatMap_cons, List.length_append, ← encode, ih]
    simp only [List.length_cons, List.length_nil]
    omega

end

end Hex

namespace Base64

/-- The value of a character of the alphabet of RFC 4648, section 4. -/
def value (c : Char) : Option Nat :=
  if 'A' ≤ c ∧ c ≤ 'Z' then some (c.toNat - 'A'.toNat)
  else if 'a' ≤ c ∧ c ≤ 'z' then some (c.toNat - 'a'.toNat + 26)
  else if '0' ≤ c ∧ c ≤ '9' then some (c.toNat - '0'.toNat + 52)
  else if c = '+' then some 62
  else if c = '/' then some 63
  else none

def byte (n : Nat) : UInt8 := UInt8.ofNat (n % 256)

/-- The last group, of one to three bytes. The bits that the padding stands for are zero. -/
def decode_last (a b c d : Char) : Option (List UInt8) := do
  let x ← value a
  let y ← value b
  if c = '=' then
    let n := x * 64 + y
    if d = '=' ∧ n % 16 = 0 then return [byte (n / 16)] else none
  else
    let z ← value c
    let n := (x * 64 + y) * 64 + z
    if d = '=' then
      if n % 4 = 0 then return [byte (n / 1024), byte (n / 4)] else none
    else
      let w ← value d
      return [byte ((n * 64 + w) / 65536), byte ((n * 64 + w) / 256), byte (n * 64 + w)]

/-- A group that others follow has no padding. -/
def decode_group (a b c d : Char) : Option (List UInt8) :=
  if c = '=' ∨ d = '=' then none else decode_last a b c d

/-- The bytes of a text in base 64, of which padding makes a whole number of groups. -/
def decode : List Char → Option (List UInt8)
  | [] => some []
  | [a, b, c, d] => decode_last a b c d
  | a :: b :: c :: d :: rest => do
    let bytes ← decode_group a b c d
    let others ← decode rest
    return bytes ++ others
  | _ => none

section

variable {a b c d : Char} {x y z w : Nat} {rest : List Char} {bytes others : List UInt8}

theorem byte_eq {n : Nat} {v : UInt8} (hn : n % 256 = v.toNat) : byte n = v := by
  rw [byte, hn, UInt8.ofNat_toNat]

theorem ne_pad (hc : value c = some z) : c ≠ '=' := by
  intro heq
  rw [heq, show value '=' = none by decide] at hc
  cases hc

theorem decode_last_one (ha : value a = some x) (hb : value b = some y) (hzero : (x * 64 + y) % 16 = 0) :
    decode_last a b '=' '=' = some [byte ((x * 64 + y) / 16)] := by
  simp [decode_last, ha, hb, hzero]

theorem decode_last_two (ha : value a = some x) (hb : value b = some y) (hc : value c = some z)
    (hzero : ((x * 64 + y) * 64 + z) % 4 = 0) :
    decode_last a b c '=' = some [byte (((x * 64 + y) * 64 + z) / 1024), byte (((x * 64 + y) * 64 + z) / 4)] := by
  simp [decode_last, ha, hb, hc, hzero, ne_pad hc]

theorem decode_last_three (ha : value a = some x) (hb : value b = some y) (hc : value c = some z) (hd : value d = some w) :
    decode_last a b c d = some [byte ((((x * 64 + y) * 64 + z) * 64 + w) / 65536),
      byte ((((x * 64 + y) * 64 + z) * 64 + w) / 256), byte (((x * 64 + y) * 64 + z) * 64 + w)] := by
  simp [decode_last, ha, hb, hc, hd, ne_pad hc, ne_pad hd]

/-- A group without padding may be followed by others. -/
theorem decode_append (hc : value c = some z) (hd : value d = some w) (hlast : decode_last a b c d = some bytes)
    (hrest : decode rest = some others) : decode (a :: b :: c :: d :: rest) = some (bytes ++ others) := by
  have hgroup : decode_group a b c d = some bytes := by
    rw [decode_group, if_neg (not_or.mpr ⟨ne_pad hc, ne_pad hd⟩), hlast]
  cases rest with
  | nil =>
    obtain rfl : others = [] := by simpa [decode, eq_comm] using hrest
    simp [decode, hlast]
  | cons e rest => simp [decode, hgroup, hrest]

end

end Base64

namespace CommandLine

def is_blank (c : Char) : Bool := c = ' ' || c = '\t'

/-- What has been read of an argument: whether a quote is open, the characters, and the number of
backslashes behind them, of which the next character tells what they mean. -/
structure reading_t where
  quoted : Bool := false
  chars : List Char := []
  slashes : Nat := 0

/-- Backslashes that no quote follows are literal. -/
def reading_t.finish (r : reading_t) : List Char := r.chars ++ List.replicate r.slashes '\\'

def reading_t.feed (r : reading_t) (c : Char) : reading_t :=
  if c = '\\' then { r with slashes := r.slashes + 1 }
  else if c = '"' then
    -- two backslashes before a quote stand for one, and one that is left makes the quote literal
    let chars := r.chars ++ List.replicate (r.slashes / 2) '\\'
    if r.slashes % 2 = 0 then { quoted := !r.quoted, chars } else { r with chars := chars ++ ['"'], slashes := 0 }
  else { r with chars := r.finish ++ [c], slashes := 0 }

/-- The arguments of a command line, of which the first may have been begun. -/
def split : Option reading_t → List Char → List (List Char)
  | none, [] => []
  | some r, [] => [r.finish]
  | none, c :: cs => if is_blank c then split none cs else split (some (({} : reading_t).feed c)) cs
  | some r, c :: cs => if is_blank c && !r.quoted then r.finish :: split none cs else split (some (r.feed c)) cs

section

variable {r : reading_t} {a cs : List Char} {c : Char} {n : Nat}

/-- In quotes no character ends the argument. -/
@[simp] theorem split_quoted (hquoted : r.quoted = true) : split (some r) (c :: cs) = split (some (r.feed c)) cs := by
  simp [split, hquoted]

@[simp] theorem feed_slash : r.feed '\\' = { r with slashes := r.slashes + 1 } := by simp [reading_t.feed]

theorem feed_char (hslash : c ≠ '\\') (hquote : c ≠ '"') : r.feed c = { r with chars := r.finish ++ [c], slashes := 0 } := by
  simp [reading_t.feed, hslash, hquote]

/-- Twice as many backslashes before a quote are those backslashes, and the quote is no part of the argument. -/
theorem feed_quote_even (hslashes : r.slashes = n * 2) :
    r.feed '"' = { quoted := !r.quoted, chars := r.chars ++ List.replicate n '\\' } := by
  simp [reading_t.feed, hslashes]

theorem feed_quote_odd (hslashes : r.slashes = n * 2 + 1) :
    r.feed '"' = { r with chars := r.chars ++ List.replicate n '\\' ++ ['"'], slashes := 0 } := by
  have hhalf : (n * 2 + 1) / 2 = n := by omega
  simp [reading_t.feed, hslashes, hhalf]

theorem split_slashes (hquoted : r.quoted = true) (n : Nat) :
    split (some r) (List.replicate n '\\' ++ cs) = split (some { r with slashes := r.slashes + n }) cs := by
  induction n generalizing r with
  | zero => simp
  | succ n ih =>
    rw [List.replicate_succ, List.cons_append, split_quoted hquoted, feed_slash,
      ih (r := { r with slashes := r.slashes + 1 }) hquoted]
    simp [Nat.add_assoc, Nat.add_comm 1 n]

end

end CommandLine
