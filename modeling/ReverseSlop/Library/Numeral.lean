import Mathlib.Data.Nat.Digits.Lemmas

namespace Numeral

/-- The bytes of an ASCII text. -/
def ascii (s : String) : List UInt8 := s.toList.map fun c => c.toNat.toUInt8

theorem ascii_append (s t : String) : ascii (s ++ t) = ascii s ++ ascii t := by
  rw [ascii, String.toList_append, List.map_append]
  rfl

/-- A text of ASCII characters has ASCII bytes. -/
theorem ascii_lt {s : String} (l : List Char) (hs : s = String.ofList l) (hl : l.all (fun c => decide (c.toNat < 128)) = true) :
    ∀ c ∈ ascii s, c < 128 := by
  subst hs
  rw [ascii, String.toList_ofList]
  intro c hc
  obtain ⟨d, hd, rfl⟩ := List.mem_map.mp hc
  have hlt := of_decide_eq_true (List.all_eq_true.mp hl d hd)
  rw [UInt8.lt_iff_toNat_lt, Nat.toUInt8_eq, UInt8.toNat_ofNat']
  exact Nat.lt_of_le_of_lt (Nat.mod_le _ _) hlt

/-- A text, of which each byte is a character. -/
def text (s : List UInt8) : String := String.ofList (s.map fun b => Char.ofNat b.toNat)

def is_digit (c : UInt8) : Bool := 48 ≤ c && c ≤ 57

/-- The value of a digit or a letter. -/
def digit (c : UInt8) : Option Nat :=
  if is_digit c then some (c.toNat - 48)
  else if 65 ≤ c ∧ c ≤ 90 then some (c.toNat - 55)
  else if 97 ≤ c ∧ c ≤ 122 then some (c.toNat - 87)
  else none

def is_space (c : UInt8) : Bool := c = 32 || (9 ≤ c && c ≤ 13)

/-- The digits at the front. -/
def digits (base : Nat) : List UInt8 → List Nat
  | [] => []
  | c :: rest =>
    match digit c with
    | some d => if d < base then d :: digits base rest else []
    | none => []

def value (base : Nat) (ds : List Nat) : Nat := ds.foldl (fun n d => n * base + d) 0

/-- A sign, and what is behind it. -/
def sign : List UInt8 → Bool × List UInt8
  | 45 :: rest => (true, rest)
  | 43 :: rest => (false, rest)
  | s => (false, s)

/-- The prefix of a number in base 16. -/
def strip_0x : List UInt8 → List UInt8
  | 48 :: 120 :: rest => rest
  | 48 :: 88 :: rest => rest
  | s => s

/-- `strtoul` for an unsigned type with a largest value: behind blanks, a sign and digits. What is
too large gives the largest value, and a minus sign negates within the type. -/
def strtoul (base max : Nat) (s : List UInt8) : Nat :=
  let (negative, s) := sign (s.dropWhile is_space)
  let n := value base (digits base (if base = 16 then strip_0x s else s))
  if n > max then max else if negative then (max + 1 - n) % (max + 1) else n

/-- The base that the front of a number stands for, and the rest. -/
def auto_base : List UInt8 → Nat × List UInt8
  | 48 :: x :: rest => if (x = 120 ∨ x = 88) ∧ digits 16 rest ≠ [] then (16, rest) else (8, 48 :: x :: rest)
  | [48] => (8, [48])
  | s => (10, s)

/-- `stoul` in base 0 for an unsigned type with a largest value. It throws where there are no digits or the
number is too large. -/
def stoul (max : Nat) (s : List UInt8) : Option Nat :=
  let (negative, s) := sign (s.dropWhile is_space)
  let (base, s) := auto_base s
  let ds := digits base s
  let n := value base ds
  if ds = [] ∨ n > max then none else some (if negative then (max + 1 - n) % (max + 1) else n)

/-- The number at the front as `strtoll` and `strtoull` read it in base 0: whether it is negative, the value of its
digits, and what is behind it. Without digits nothing is read. -/
def strto (s : List UInt8) : Bool × Nat × List UInt8 :=
  let signed := sign (s.dropWhile is_space)
  let based := auto_base signed.2
  let ds := digits based.1 based.2
  if ds = [] then (false, 0, s) else (signed.1, value based.1 ds, based.2.drop ds.length)

/-- A number at the front, as `%u` of `sscanf` reads it, and what is behind it. -/
def scan (s : List UInt8) : Option (Nat × List UInt8) :=
  let (negative, s) := sign (s.dropWhile is_space)
  let ds := digits 10 s
  let n := if negative then 2 ^ 32 - value 10 ds % 2 ^ 32 else value 10 ds
  if ds = [] then none else some (n % 2 ^ 32, s.drop ds.length)

def upper (d : Nat) : UInt8 := (if d < 10 then 48 + d else 55 + d).toUInt8

/-- A number as `%u` or `%X` prints it. -/
def print (base n : Nat) : List UInt8 := if n = 0 then [48] else (Nat.digits base n).reverse.map upper

section

variable {base max n : Nat} {ds : List Nat}

theorem digit_upper {d : Nat} (hd : d < 16) : digit (upper d) = some d := by
  revert d
  decide

/-- The digits of a number end where a byte is no digit. -/
theorem digits_map_upper (hbase : base ≤ 16) (hds : ∀ d ∈ ds, d < base) (rest : List UInt8)
    (hrest : ∀ c ∈ rest.head?, digit c = none) : digits base (ds.map upper ++ rest) = ds := by
  induction ds with
  | nil =>
    cases rest with
    | nil => rfl
    | cons c rest => simp [digits, hrest c rfl]
  | cons d ds ih =>
    obtain ⟨hd, hds⟩ := List.forall_mem_cons.mp hds
    simp [digits, digit_upper (Nat.lt_of_lt_of_le hd hbase), hd, ih hds]

theorem value_reverse (ds : List Nat) : value base ds.reverse = Nat.ofDigits base ds := by
  rw [value, List.foldl_reverse, Nat.ofDigits_eq_foldr]
  congr 1
  funext d n
  rw [Nat.cast_id, Nat.mul_comm, Nat.add_comm]

/-- The bytes of a printed number are digits. -/
theorem print_eq (hbase : 1 < base) :
    ∃ ds : List Nat, ds ≠ [] ∧ (∀ d ∈ ds, d < base) ∧ value base ds = n ∧ print base n = ds.map upper := by
  by_cases hn : n = 0
  · refine ⟨[0], List.cons_ne_nil _ _, ?_, ?_, ?_⟩
    · simpa using Nat.lt_trans Nat.zero_lt_one hbase
    · simp [value, hn]
    · simp [print, hn, upper]
  · refine ⟨(Nat.digits base n).reverse, ?_, ?_, ?_, if_neg hn⟩
    · simpa using Nat.digits_ne_nil_iff_ne_zero.mpr hn
    · intro d hd
      exact Nat.digits_lt_base hbase (List.mem_reverse.mp hd)
    · rw [value_reverse, Nat.ofDigits_digits]

/-- A printed digit is none of the characters that a number may begin with otherwise. -/
theorem upper_ne {d : Nat} (hd : d < 16) :
    is_space (upper d) = false ∧ upper d ≠ 45 ∧ upper d ≠ 43 ∧ upper d ≠ 120 ∧ upper d ≠ 88 := by
  revert d
  decide

theorem upper_lt {d : Nat} (hd : d < 16) : upper d < 128 := by
  revert d
  decide

theorem sign_map_upper (hbase : base ≤ 16) (hds : ∀ d ∈ ds, d < base) (hne : ds ≠ []) (rest : List UInt8) :
    sign ((ds.map upper ++ rest).dropWhile is_space) = (false, ds.map upper ++ rest) := by
  cases ds with
  | nil => exact absurd rfl hne
  | cons d ds =>
    obtain ⟨hspace, hminus, hplus, -⟩ := upper_ne (Nat.lt_of_lt_of_le (List.forall_mem_cons.mp hds).1 hbase)
    rw [List.map_cons, List.cons_append, List.dropWhile_cons_of_neg (by simp [hspace])]
    unfold sign
    split
    · exact absurd (List.cons.inj ‹_›).1 hminus
    · exact absurd (List.cons.inj ‹_›).1 hplus
    · rfl

theorem strip_0x_map_upper (hbase : base ≤ 16) (hds : ∀ d ∈ ds, d < base) : strip_0x (ds.map upper) = ds.map upper := by
  unfold strip_0x
  split
  · rename_i hsame
    obtain ⟨d, hd, hx⟩ := List.mem_map.mp (hsame ▸ List.mem_cons_of_mem _ List.mem_cons_self : 120 ∈ ds.map upper)
    exact absurd hx (upper_ne (Nat.lt_of_lt_of_le (hds d hd) hbase)).2.2.2.1
  · rename_i hsame
    obtain ⟨d, hd, hx⟩ := List.mem_map.mp (hsame ▸ List.mem_cons_of_mem _ List.mem_cons_self : 88 ∈ ds.map upper)
    exact absurd hx (upper_ne (Nat.lt_of_lt_of_le (hds d hd) hbase)).2.2.2.2
  · rfl

/-- A printed number is read back. -/
theorem strtoul_print (hlow : 1 < base) (hbase : base ≤ 16) (hn : n ≤ max) : strtoul base max (print base n) = n := by
  obtain ⟨ds, hne, hds, hvalue, hprint⟩ := print_eq (n := n) hlow
  have hsign : sign ((ds.map upper).dropWhile is_space) = (false, ds.map upper) := by
    simpa using sign_map_upper hbase hds hne []
  have hstrip : (if base = 16 then strip_0x (ds.map upper) else ds.map upper) = ds.map upper := by
    rw [strip_0x_map_upper hbase hds, ite_self]
  have hdigits : digits base (ds.map upper) = ds := by
    simpa using digits_map_upper hbase hds [] (by simp)
  simp [strtoul, hprint, hsign, hstrip, hdigits, hvalue, Nat.not_lt.mpr hn]

/-- A printed decimal number does not look like one in another base, but for zero. -/
theorem auto_base_print (hn : n ≠ 0) : auto_base (print 10 n) = (10, print 10 n) := by
  have hne : Nat.digits 10 n ≠ [] := Nat.digits_ne_nil_iff_ne_zero.mpr hn
  have hlast := Nat.getLast_digit_ne_zero 10 hn
  obtain ⟨front, hfront⟩ : ∃ front, Nat.digits 10 n = front ++ [(Nat.digits 10 n).getLast hne] :=
    ⟨_, (List.dropLast_append_getLast hne).symm⟩
  have hlt : (Nat.digits 10 n).getLast hne < 10 := Nat.digits_lt_base (by decide) (List.getLast_mem hne)
  have hzero : ∀ d, d < 10 → d ≠ 0 → upper d ≠ 48 := by decide
  have hprint : print 10 n = upper ((Nat.digits 10 n).getLast hne) :: front.reverse.map upper := by
    rw [print, if_neg hn]
    nth_rewrite 1 [hfront]
    simp
  rw [hprint]
  unfold auto_base
  split
  · exact absurd (List.cons.inj ‹_›).1 (hzero _ hlt hlast)
  · exact absurd (List.cons.inj ‹_›).1 (hzero _ hlt hlast)
  · rfl

/-- Decimal digits are read as the number they are, up to the largest one. -/
theorem strtoul_digits (hne : ds ≠ []) (hds : ∀ d ∈ ds, d < 10) :
    strtoul 10 max (ds.map upper) = min (value 10 ds) max := by
  have hsign : sign ((ds.map upper).dropWhile is_space) = (false, ds.map upper) := by
    simpa using sign_map_upper (by omega) hds hne []
  have hdigits : digits 10 (ds.map upper) = ds := by
    simpa using digits_map_upper (by omega) hds [] (by simp)
  by_cases hlarge : value 10 ds > max
  · simp [strtoul, hsign, hdigits, hlarge, Nat.min_eq_right (Nat.le_of_lt hlarge)]
  · simp [strtoul, hsign, hdigits, hlarge, Nat.min_eq_left (Nat.not_lt.mp hlarge)]

end

end Numeral
