import ReverseSlop.Core.Debugger.State
import ReverseSlop.Library.Numeral

namespace slop.core.debugger

def is_digit (base : Nat) (c : Char) : Bool := (digit_value c).any (· < base)

/-- The number that digits stand for in a base. -/
def value (base : Nat) (ds : List Char) : Nat := Numeral.value base (ds.map fun c => (digit_value c).getD 0)

def is_x (c : Char) : Bool := c = 'x' || c = 'X'

section

variable {sep text tok lead blanks rest : List Char} {c : Char}

theorem head?_dropWhile_not (p : Char → Bool) (l : List Char) : ∀ c ∈ (l.dropWhile p).head?, p c = false := by
  intro c hc
  have hnot := List.head?_dropWhile_not p l
  rw [Option.mem_def.mp hc] at hnot
  simpa using hnot

theorem prefix_head {l l' : List Char} (hpre : l' <+: l) : ∀ c ∈ l'.head?, c ∈ l.head? := by
  obtain ⟨more, rfl⟩ := hpre
  intro c hc
  cases l' with
  | nil => simp at hc
  | cons a l' => simpa using hc

/-- Blanks at the end are dropped behind something that does not end in one. -/
theorem trim_right_append (hlast : ∀ c ∈ tok.getLast?, isspace c = false) (hblanks : ∀ c ∈ blanks, isspace c = true) :
    trim_right (tok ++ blanks) = tok := by
  rw [trim_right, List.rdropWhile, List.reverse_append, List.dropWhile_append_of_pos]
  · cases hrev : tok.reverse with
    | nil => simp [← List.reverse_eq_nil_iff, hrev]
    | cons c front =>
      have hspace := hlast c (by simp [← List.head?_reverse, hrev])
      rw [List.dropWhile_cons_of_neg (by simp [hspace]), ← hrev, List.reverse_reverse]
  · simpa using hblanks

variable (sep tok blanks rest) in
/-- A token in front of a separator, with blanks on both sides. -/
theorem token_eq (hlead : ∀ c ∈ lead, isspace c = true) (hne : tok ≠ []) (hfirst : ∀ c ∈ tok.head?, isspace c = false)
    (hlast : ∀ c ∈ tok.getLast?, isspace c = false) (htok : ∀ c ∈ tok, is_separator sep c = false)
    (hblanks : ∀ c ∈ blanks, isspace c = true ∧ is_separator sep c = false)
    (hrest : ∀ c ∈ rest.head?, is_separator sep c = true) :
    token sep (lead ++ (tok ++ (blanks ++ rest))) = (tok, blanks ++ rest) := by
  have hstart : (lead ++ (tok ++ (blanks ++ rest))).dropWhile isspace = tok ++ (blanks ++ rest) := by
    rw [List.dropWhile_append_of_pos hlead]
    obtain ⟨c, tail, rfl⟩ := List.exists_cons_of_ne_nil hne
    rw [List.cons_append, List.dropWhile_cons_of_neg]
    simp [hfirst c (by simp)]
  have hraw : (tok ++ (blanks ++ rest)).takeWhile (fun c => !is_separator sep c) = tok ++ blanks := by
    rw [← List.append_assoc, List.takeWhile_append_of_pos]
    · cases rest with
      | nil => simp
      | cons c rest => simp [hrest c (by simp)]
    · intro c hc
      obtain hc | hc := List.mem_append.mp hc
      · simp [htok c hc]
      · simp [(hblanks c hc).2]
  have htrim : trim_right (tok ++ blanks) = tok := trim_right_append hlast fun c hc => (hblanks c hc).1
  simp only [token, hstart, hraw, htrim, List.drop_left]

/-- Where a token stands. -/
theorem token_cases (sep text : List Char) :
    ∃ lead blanks rest, text = lead ++ ((token sep text).1 ++ (blanks ++ rest)) ∧
      (token sep text).2 = blanks ++ rest ∧ (∀ c ∈ lead, isspace c = true) ∧
      (∀ c ∈ (token sep text).1.head?, isspace c = false) ∧ (∀ c ∈ blanks, isspace c = true) ∧
      ∀ c ∈ rest.head?, is_separator sep c = true := by
  let start := text.dropWhile isspace
  let raw := start.takeWhile fun c => !is_separator sep c
  have hsplit : trim_right raw ++ raw.rtakeWhile isspace = raw := List.rdropWhile_append_rtakeWhile ..
  have hstart : start = trim_right raw ++ (raw.rtakeWhile isspace ++ start.dropWhile fun c => !is_separator sep c) := by
    rw [← List.append_assoc, hsplit]
    exact (List.takeWhile_append_dropWhile ..).symm
  refine ⟨text.takeWhile isspace, raw.rtakeWhile isspace, start.dropWhile fun c => !is_separator sep c, ?_, ?_, ?_, ?_,
    ?_, ?_⟩
  · calc
      text = text.takeWhile isspace ++ start := (List.takeWhile_append_dropWhile ..).symm
      _ = _ := by
        nth_rewrite 1 [hstart]
        simp [token, start, raw]
  · change start.drop (trim_right raw).length = _
    nth_rewrite 1 [hstart]
    simp
  · intro c hc
    exact List.mem_takeWhile_imp hc
  · intro c hc
    have hpre : trim_right raw <+: start := (List.rdropWhile_prefix ..).trans (List.takeWhile_prefix _)
    exact head?_dropWhile_not _ _ c (prefix_head hpre c hc)
  · intro c hc
    exact List.mem_rtakeWhile_imp hc
  · intro c hc
    simpa using head?_dropWhile_not _ _ c hc

end

/-- The number that is read in front of a text: in base 16 behind 0x and a digit, in base 8 behind a zero, in
base 10 otherwise; it ends where no digit of the base follows. -/
inductive Reads (tail : List Char) : List Char → Nat → Prop where
  | decimal {ds : List Char} (hne : ds ≠ []) (hzero : '0' ∉ ds.head?) (hds : ∀ c ∈ ds, is_digit 10 c = true)
    (htail : ∀ c ∈ tail.head?, is_digit 10 c = false) : Reads tail ds (value 10 ds)
  | octal {ds : List Char} (hds : ∀ c ∈ ds, is_digit 8 c = true) (htail : ∀ c ∈ tail.head?, is_digit 8 c = false)
    (hx : ds = [] → ∀ x ∈ tail.head?, is_x x = true → ∀ c ∈ tail.tail.head?, is_digit 16 c = false) :
    Reads tail ('0' :: ds) (value 8 ('0' :: ds))
  | hex {x : Char} {ds : List Char} (hx : is_x x = true) (hne : ds ≠ []) (hds : ∀ c ∈ ds, is_digit 16 c = true)
    (htail : ∀ c ∈ tail.head?, is_digit 16 c = false) : Reads tail ('0' :: x :: ds) (value 16 ds)

section

variable {base n : Nat} {cs ds core tail : List Char}

theorem read_digits_eq (hds : ∀ c ∈ ds, is_digit base c = true) (htail : ∀ c ∈ tail.head?, is_digit base c = false) :
    read_digits base (ds ++ tail) = if ds = [] then none else some (value base ds) := by
  have hdigits : ((ds ++ tail).map digit_value).takeWhile (fun d => d.any (· < base)) = ds.map digit_value := by
    rw [List.map_append, List.takeWhile_append_of_pos]
    · cases tail with
      | nil => simp
      | cons c tail =>
        have hc : (digit_value c).any (· < base) = false := htail c (by simp)
        rw [List.map_cons, List.takeWhile_cons_of_neg (by simp [hc]), List.append_nil]
    · intro d hd
      obtain ⟨c, hc, rfl⟩ := List.mem_map.mp hd
      exact hds c hc
  simp only [read_digits, hdigits, List.isEmpty_iff, List.map_eq_nil_iff, value, Numeral.value, List.foldl_map]

theorem digits_split (base : Nat) (cs : List Char) :
    cs = cs.takeWhile (is_digit base) ++ cs.dropWhile (is_digit base) ∧
      (∀ c ∈ cs.takeWhile (is_digit base), is_digit base c = true) ∧
      ∀ c ∈ (cs.dropWhile (is_digit base)).head?, is_digit base c = false := by
  refine ⟨(List.takeWhile_append_dropWhile ..).symm, ?_, head?_dropWhile_not _ cs⟩
  intro c hc
  exact List.mem_takeWhile_imp hc

/-- What is read where there is a number. -/
theorem read_digits_some (hread : read_digits base cs = some n) :
    ∃ ds tail, cs = ds ++ tail ∧ ds ≠ [] ∧ (∀ c ∈ ds, is_digit base c = true) ∧
      (∀ c ∈ tail.head?, is_digit base c = false) ∧ n = value base ds := by
  obtain ⟨hsplit, hds, htail⟩ := digits_split base cs
  have heq := read_digits_eq hds htail
  rw [← hsplit, hread] at heq
  by_cases hne : cs.takeWhile (is_digit base) = []
  · simp [hne] at heq
  · rw [if_neg hne, Option.some.injEq] at heq
    exact ⟨_, _, hsplit, hne, hds, htail, heq⟩

theorem read_digits_none (hread : read_digits base cs = none) : ∀ c ∈ cs.head?, is_digit base c = false := by
  obtain ⟨hsplit, hds, htail⟩ := digits_split base cs
  have heq := read_digits_eq hds htail
  rw [← hsplit, hread] at heq
  by_cases hne : cs.takeWhile (is_digit base) = []
  · rw [hne, List.nil_append] at hsplit
    rw [← hsplit] at htail
    exact htail
  · simp [hne] at heq

theorem read_prefixed_zero (x : Char) (rest : List Char) :
    read_prefixed ('0' :: x :: rest) =
      if is_x x then (read_digits 16 rest).or (some 0) else read_digits 8 ('0' :: x :: rest) := by
  simp [read_prefixed, is_x]

theorem read_prefixed_other (hzero : '0' ∉ cs.head?) : read_prefixed cs = read_digits 10 cs := by
  rw [read_prefixed]
  intro x rest hcs
  simp [hcs] at hzero

theorem value_zero : value 8 ['0'] = 0 := by simp [value, Numeral.value, digit_value]

theorem not_x_of_digit {c : Char} (hc : is_digit 10 c = true) : is_x c = false := by
  rw [← Bool.not_eq_true]
  intro hx
  simp only [is_x, Bool.or_eq_true, decide_eq_true_eq] at hx
  obtain rfl | rfl := hx
  · simp [is_digit, digit_value] at hc
  · simp [is_digit, digit_value] at hc

theorem is_digit_mono {base base' : Nat} (hle : base ≤ base') {c : Char} (hc : is_digit base c = true) :
    is_digit base' c = true := by
  obtain ⟨d, hd, hlt⟩ := (Option.any_eq_true ..).mp hc
  rw [decide_eq_true_eq] at hlt
  rw [is_digit, hd, Option.any_some, decide_eq_true_eq]
  omega

theorem Reads.read_prefixed (h : Reads tail core n) : read_prefixed (core ++ tail) = some n := by
  cases h with
  | decimal hne hzero hds htail =>
    rw [read_prefixed_other, read_digits_eq hds htail, if_neg hne]
    obtain ⟨c, ds, rfl⟩ := List.exists_cons_of_ne_nil hne
    simpa using hzero
  | @octal ds hds htail hx =>
    have hzero : ∀ c ∈ '0' :: ds, is_digit 8 c = true := by
      simpa [is_digit, digit_value] using hds
    have hread := read_digits_eq hzero htail
    rw [if_neg (List.cons_ne_nil _ _)] at hread
    cases hrest : ds ++ tail with
    | nil =>
      obtain ⟨rfl, rfl⟩ := List.append_eq_nil_iff.mp hrest
      simp [debugger.read_prefixed, read_digits, digit_value, value, Numeral.value]
    | cons x rest =>
      rw [List.cons_append, hrest, read_prefixed_zero]
      by_cases hxx : is_x x = true
      · have hnil : ds = [] := by
          cases ds with
          | nil => simp
          | cons c ds =>
            obtain ⟨rfl, _⟩ := List.cons.inj hrest
            have hnot := not_x_of_digit (is_digit_mono (by omega : 8 ≤ 10) (hds c (by simp)))
            simp [hnot] at hxx
        rw [hnil, List.nil_append] at hrest
        have hnone : ∀ c ∈ rest.head?, is_digit 16 c = false := by
          intro c hc
          exact hx hnil x (by simp [hrest]) hxx c (by simpa [hrest] using hc)
        have hread16 : read_digits 16 ([] ++ rest) = if ([] : List Char) = [] then none else some (value 16 []) :=
          read_digits_eq (by simp) hnone
        rw [List.nil_append, if_pos rfl] at hread16
        rw [if_pos hxx, hread16, hnil, value_zero, Option.none_or]
      · rw [if_neg hxx, ← hrest, ← List.cons_append, hread]
  | hex hx hne hds htail =>
    rw [List.cons_append, List.cons_append, read_prefixed_zero, if_pos hx, read_digits_eq hds htail, if_neg hne,
      Option.some_or]

theorem reads_of_read_prefixed (hread : read_prefixed cs = some n) :
    ∃ core tail, cs = core ++ tail ∧ Reads tail core n := by
  by_cases hzero : '0' ∈ cs.head?
  · obtain ⟨rest, rfl⟩ : ∃ rest, cs = '0' :: rest := by
      cases cs with
      | nil => simp at hzero
      | cons c rest => exact ⟨rest, by simpa using hzero⟩
    cases rest with
    | nil =>
      have hzero : read_prefixed ['0'] = some (value 8 ['0']) := by
        simp [read_prefixed, read_digits, digit_value, value, Numeral.value]
      have hn := Option.some.inj (hread.symm.trans hzero)
      refine ⟨['0'], [], by simp, ?_⟩
      rw [hn]
      exact .octal (by simp) (by simp) (by simp)
    | cons x rest =>
      rw [read_prefixed_zero] at hread
      by_cases hx : is_x x = true
      · rw [if_pos hx] at hread
        cases hread16 : read_digits 16 rest with
        | none =>
          rw [hread16, Option.none_or, ← value_zero] at hread
          have hn := Option.some.inj hread
          refine ⟨['0'], x :: rest, by simp, ?_⟩
          rw [← hn]
          apply Reads.octal (by simp)
          · intro c hc
            obtain rfl : x = c := by simpa using hc
            rw [← Bool.not_eq_true]
            intro hdigit
            simp [not_x_of_digit (is_digit_mono (by omega : 8 ≤ 10) hdigit)] at hx
          · intro _ y _ _ c hc
            exact read_digits_none hread16 c (by simpa using hc)
        | some m =>
          obtain ⟨ds, tail, rfl, hne, hds, htail, rfl⟩ := read_digits_some hread16
          rw [hread16, Option.some_or, Option.some.injEq] at hread
          refine ⟨'0' :: x :: ds, tail, by simp, ?_⟩
          rw [← hread]
          exact .hex hx hne hds htail
      · rw [if_neg hx] at hread
        obtain ⟨ds, tail, hsplit, hne, hds, htail, rfl⟩ := read_digits_some hread
        obtain ⟨c, ds, rfl⟩ := List.exists_cons_of_ne_nil hne
        rw [List.cons_append, List.cons.injEq] at hsplit
        obtain ⟨rfl, hrest⟩ := hsplit
        refine ⟨'0' :: ds, tail, by simp [hrest], ?_⟩
        apply Reads.octal (List.forall_mem_cons.mp hds).2 htail
        intro hnil y hy hyx
        rw [hnil, List.nil_append] at hrest
        obtain rfl : x = y := by simpa [← hrest] using hy
        exact absurd hyx hx
  · rw [read_prefixed_other hzero] at hread
    obtain ⟨ds, tail, rfl, hne, hds, htail, rfl⟩ := read_digits_some hread
    refine ⟨ds, tail, by simp, .decimal hne ?_ hds htail⟩
    obtain ⟨c, ds, rfl⟩ := List.exists_cons_of_ne_nil hne
    simpa using hzero

theorem le_of_isspace {c : Char} (hc : isspace c = true) : 9 ≤ c.toNat ∧ c.toNat ≤ 32 := by
  simp only [isspace, Bool.or_eq_true, decide_eq_true_eq, Bool.and_eq_true, Char.le_def, UInt32.le_iff_toNat_le] at hc
  obtain rfl | ⟨hlow, hhigh⟩ := hc
  · simp
  · have htab : ('\t' : Char).val.toNat = 9 := by simp
    have hreturn : ('\r' : Char).val.toNat = 13 := by simp
    rw [htab] at hlow
    rw [hreturn] at hhigh
    have hval : c.toNat = c.val.toNat := by simp
    omega

theorem not_isspace {c : Char} (hc : 32 < c.toNat) : isspace c = false := by
  rw [← Bool.not_eq_true]
  intro hspace
  have hle := (le_of_isspace hspace).2
  omega

theorem le_of_is_digit {base : Nat} {c : Char} (hc : is_digit base c = true) : 48 ≤ c.toNat := by
  have hval : c.toNat = c.val.toNat := by simp
  have hzero : ('0' : Char).val.toNat = 48 := by simp
  have ha : ('a' : Char).val.toNat = 97 := by simp
  have hA : ('A' : Char).val.toNat = 65 := by simp
  obtain ⟨d, hd, _⟩ := (Option.any_eq_true ..).mp hc
  simp only [digit_value, Bool.and_eq_true, decide_eq_true_eq, Char.le_def, UInt32.le_iff_toNat_le] at hd
  split at hd
  · omega
  · split at hd
    · omega
    · split at hd
      · omega
      · cases hd

theorem is_digit_ten {c : Char} (hc : is_digit 10 c = true) : c ∈ "0123456789".toList := by
  have hval : c.toNat = c.val.toNat := by simp
  have hzero : ('0' : Char).val.toNat = 48 := by simp
  have hnine : ('9' : Char).val.toNat = 57 := by simp
  obtain ⟨d, hd, hlt⟩ := (Option.any_eq_true ..).mp hc
  rw [decide_eq_true_eq] at hlt
  have hrange : 48 ≤ c.toNat ∧ c.toNat ≤ 57 := by
    simp only [digit_value, Bool.and_eq_true, decide_eq_true_eq, Char.le_def, UInt32.le_iff_toNat_le] at hd
    split at hd
    · omega
    · split at hd
      · rw [Option.some.injEq] at hd
        omega
      · split at hd
        · rw [Option.some.injEq] at hd
          omega
        · cases hd
  have hall : ∀ k ∈ List.range' 48 10, Char.ofNat k ∈ "0123456789".toList := by simp [List.range']
  have hmem := hall c.toNat (by rw [List.mem_range'_1]; omega)
  rwa [Char.ofNat_toNat] at hmem

theorem Reads.head (h : Reads tail core n) : ∃ c rest, core = c :: rest ∧ is_digit 10 c = true := by
  cases h with
  | decimal hne hzero hds htail =>
    obtain ⟨c, rest, rfl⟩ := List.exists_cons_of_ne_nil hne
    exact ⟨c, rest, by simp, hds c (by simp)⟩
  | @octal ds hds htail hx => exact ⟨'0', ds, by simp, by simp [is_digit, digit_value]⟩
  | @hex x ds hx hne hds htail => exact ⟨'0', x :: ds, by simp, by simp [is_digit, digit_value]⟩

theorem Reads.le_of_mem (h : Reads tail core n) : ∀ c ∈ core, 48 ≤ c.toNat := by
  cases h with
  | decimal hne hzero hds htail =>
    intro c hc
    exact le_of_is_digit (hds c hc)
  | octal hds htail hx =>
    intro c hc
    obtain rfl | hc := List.mem_cons.mp hc
    · simp
    · exact le_of_is_digit (hds c hc)
  | hex hx hne hds htail =>
    intro c hc
    obtain rfl | hc := List.mem_cons.mp hc
    · simp
    · obtain rfl | hc := List.mem_cons.mp hc
      · simp only [is_x, Bool.or_eq_true, decide_eq_true_eq] at hx
        obtain rfl | rfl := hx <;> simp
      · exact le_of_is_digit (hds c hc)

theorem prefix_tail {l l' : List Char} (hpre : l' <+: l) : l'.tail <+: l.tail := by
  obtain ⟨more, rfl⟩ := hpre
  cases l' with
  | nil => simp
  | cons a l' => simp

/-- The text behind the number may end earlier. -/
theorem Reads.of_prefix {tail' : List Char} (h : Reads tail core n) (hpre : tail' <+: tail) :
    Reads tail' core n := by
  have hhead := prefix_head hpre
  cases h with
  | decimal hne hzero hds htail => exact .decimal hne hzero hds fun c hc => htail c (hhead c hc)
  | octal hds htail hx =>
    apply Reads.octal hds
    · intro c hc
      exact htail c (hhead c hc)
    · intro hnil x hxx hisx c hc
      exact hx hnil x (hhead x hxx) hisx c (prefix_head (prefix_tail hpre) c hc)
  | hex hx hne hds htail => exact .hex hx hne hds fun c hc => htail c (hhead c hc)

theorem not_digit_of_lt {base : Nat} {c : Char} (hc : c.toNat < 48) : is_digit base c = false := by
  rw [← Bool.not_eq_true]
  intro hdigit
  have hle := le_of_is_digit hdigit
  omega

theorem head_append_not_digit {base : Nat} {more : List Char} (htail : ∀ c ∈ tail.head?, is_digit base c = false)
    (hmore : ∀ c ∈ more.head?, c.toNat < 48) : ∀ c ∈ (tail ++ more).head?, is_digit base c = false := by
  cases tail with
  | nil =>
    intro c hc
    exact not_digit_of_lt (hmore c (by simpa using hc))
  | cons a tail => simpa using htail

/-- A text may follow that begins with no digit. -/
theorem Reads.append {more : List Char} (h : Reads tail core n) (hmore : ∀ c ∈ more.head?, c.toNat < 48) :
    Reads (tail ++ more) core n := by
  cases h with
  | decimal hne hzero hds htail => exact .decimal hne hzero hds (head_append_not_digit htail hmore)
  | octal hds htail hx =>
    apply Reads.octal hds (head_append_not_digit htail hmore)
    intro hnil x hxx hisx
    cases tail with
    | nil =>
      have hlt := hmore x (by simpa using hxx)
      simp only [is_x, Bool.or_eq_true, decide_eq_true_eq] at hisx
      obtain rfl | rfl := hisx <;> simp at hlt
    | cons a tail => exact head_append_not_digit (hx hnil x (by simpa using hxx) hisx) hmore
  | hex hx hne hds htail => exact .hex hx hne hds (head_append_not_digit htail hmore)

/-- The number behind a sign, as 64 bits. -/
def signed (sgn : List Char) (n : Nat) : UInt64 := if sgn = ['-'] then 0 - UInt64.ofNat n else UInt64.ofNat n

theorem stoull_eq {sgn : List Char} (hsign : sgn = [] ∨ sgn = ['-'] ∨ sgn = ['+']) (h : Reads tail core n)
    (hn : n < 2 ^ 64) : stoull (sgn ++ (core ++ tail)) = some (signed sgn n) := by
  have hread := h.read_prefixed
  obtain ⟨c, rest, rfl, hc⟩ := h.head
  have hc48 := le_of_is_digit hc
  have hspace := not_isspace (c := c) (by omega)
  have hfilter : (read_prefixed (c :: rest ++ tail)).filter (· < UInt64.size) = some n := by
    rw [hread, Option.filter_some, if_pos]
    simpa [UInt64.size] using hn
  obtain rfl | rfl | rfl := hsign
  · have hplus : c ≠ '+' := by
      rintro rfl
      simp at hc48
    have hminus : c ≠ '-' := by
      rintro rfl
      simp at hc48
    rw [List.nil_append, stoull, List.cons_append, List.dropWhile_cons_of_neg (by simp [hspace])]
    split
    · rename_i heq
      exact absurd (List.cons.inj heq).1 hminus
    · rename_i heq
      exact absurd (List.cons.inj heq).1 hplus
    · simp only [← List.cons_append, hfilter]
      simp [signed]
  · have hskip : (['-'] ++ (c :: rest ++ tail)).dropWhile isspace = '-' :: (c :: rest ++ tail) := by
      simp [isspace]
    rw [stoull, hskip]
    simp only [hfilter]
    simp [signed]
  · have hskip : (['+'] ++ (c :: rest ++ tail)).dropWhile isspace = '+' :: (c :: rest ++ tail) := by
      simp [isspace]
    rw [stoull, hskip]
    simp only [hfilter]
    simp [signed]

theorem reads_of_stoull {v : UInt64} (hspace : ∀ c ∈ cs.head?, isspace c = false) (hread : stoull cs = some v) :
    ∃ sgn core tail n, cs = sgn ++ (core ++ tail) ∧ (sgn = [] ∨ sgn = ['-'] ∨ sgn = ['+']) ∧ Reads tail core n ∧
      n < 2 ^ 64 ∧ v = signed sgn n := by
  have hskip : cs.dropWhile isspace = cs := by
    cases cs with
    | nil => simp
    | cons c rest =>
      have hc := hspace c (by simp)
      rw [List.dropWhile_cons_of_neg (by simp [hc])]
  have hnumber : ∀ {l : List Char} {n : Nat}, (read_prefixed l).filter (· < UInt64.size) = some n →
      (∃ core tail, l = core ++ tail ∧ Reads tail core n) ∧ n < 2 ^ 64 := by
    intro l n hl
    obtain ⟨hl, hlt⟩ := Option.filter_eq_some_iff.mp hl
    refine ⟨reads_of_read_prefixed hl, ?_⟩
    simpa [UInt64.size] using hlt
  rw [stoull, hskip] at hread
  split at hread
  · obtain ⟨n, hn, rfl⟩ := Option.map_eq_some_iff.mp hread
    obtain ⟨⟨core, tail, rfl, hreads⟩, hlt⟩ := hnumber hn
    exact ⟨['-'], core, tail, n, by simp, by simp, hreads, hlt, by simp [signed]⟩
  · obtain ⟨n, hn, rfl⟩ := Option.map_eq_some_iff.mp hread
    obtain ⟨⟨core, tail, rfl, hreads⟩, hlt⟩ := hnumber hn
    exact ⟨['+'], core, tail, n, by simp, by simp, hreads, hlt, by simp [signed]⟩
  · obtain ⟨n, hn, rfl⟩ := Option.map_eq_some_iff.mp hread
    obtain ⟨⟨core, tail, rfl, hreads⟩, hlt⟩ := hnumber hn
    exact ⟨[], core, tail, n, by simp, by simp, hreads, hlt, by simp [signed]⟩

end

end slop.core.debugger
