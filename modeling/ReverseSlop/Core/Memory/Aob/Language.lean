import ReverseSlop.Core.Memory.Aob.Scan

namespace slop.core.memory

/-- A string of hex digits as words of two characters. -/
def chunks : List UInt8 → List (List UInt8)
  | c :: c' :: t => [c, c'] :: chunks t
  | _ => []

/-- The words of a pattern: what stands between the separators, without its prefix, or the pairs of a
compact hex string. -/
def words (text : List UInt8) : List (List UInt8) :=
  match ((text.splitOnP is_separator).filter (· ≠ [])).map Numeral.strip_0x with
  | [t] => if is_compact t then chunks t else [t]
  | ts => ts

/-- The bytes that a word stands for. The digit of a word of one character is the low one, and what is no digit
leaves its half free. -/
def denotes : List UInt8 → UInt8 → Prop
  | [c], d => ∀ n, hex_val c = some n → d.toNat % 16 = n
  | [c, c'], d => (∀ n, hex_val c = some n → d.toNat / 16 = n) ∧ (∀ n, hex_val c' = some n → d.toNat % 16 = n)
  | _, _ => False

/-- A buffer begins with a byte for each word. -/
def Denotes (text data : List UInt8) : Prop :=
  (words text).length ≤ data.length ∧ List.Forall₂ denotes (words text) (data.take (words text).length)

/-- A word that is not one single digit other than 0. -/
def Plain (w : List UInt8) : Prop := ∀ c n, w = [c] → hex_val c = some n → n = 0

/-- The value and the mask that a word is compiled to. -/
def Compiles (w : List UInt8) (cell : UInt8 × UInt8) : Prop :=
  (∃ c hi mask, w = [c] ∧ compile_half 0xF0 c = some (hi, mask) ∧
      cell = (if hi = none then (0, 0) else (halves hi none, 0x0F))) ∨
    ∃ c c' hi lo mask mask', w = [c, c'] ∧ compile_half 0xF0 c = some (hi, mask) ∧ compile_half 0x0F c' = some (lo, mask') ∧
      cell = (halves hi lo, mask ||| mask')

def cell_match (cell : UInt8 × UInt8) (d : UInt8) : Bool := cell.2 == 0 || d &&& cell.2 == cell.1 &&& cell.2

section

variable {text data t w : List UInt8} {cells : List (UInt8 × UInt8)} {cell : UInt8 × UInt8} {c d : UInt8} {p : aob_pattern_t}

theorem tokenize_eq (cur text : List UInt8) :
    tokenize cur text = (text.splitOnPPrepend is_separator cur.reverse).filter (· ≠ []) := by
  induction text generalizing cur with
  | nil =>
    rw [tokenize, List.splitOnPPrepend_nil, List.reverse_reverse]
    by_cases hcur : cur = [] <;> simp [hcur]
  | cons c text ih =>
    rw [tokenize, List.splitOnPPrepend_cons_eq_if]
    split
    · rw [ih, List.reverse_reverse, List.reverse_nil, List.splitOnPPrepend_nil_right]
      by_cases hcur : cur = [] <;> simp [hcur]
    · rw [ih, List.reverse_append]
      rfl

theorem tokenize_nil (text : List UInt8) : tokenize [] text = (text.splitOnP is_separator).filter (· ≠ []) := tokenize_eq [] text

theorem hex_val_lt {n : Nat} (hc : hex_val c = some n) : n < 16 := by
  simp only [hex_val, UInt8.le_iff_toNat_le, UInt8.reduceToNat] at hc
  grind

theorem hex_val_wildcard (hc : is_wildcard c = true) : hex_val c = none := by
  rcases (Bool.or_eq_true _ _).mp hc with hc | hc <;> rw [of_decide_eq_true hc] <;> rfl

/-- A half is a wildcard or a digit. -/
theorem compile_half_cases {half_mask mask : UInt8} {half : Option Nat} (hhalf : compile_half half_mask c = some (half, mask)) :
    half = hex_val c ∧ mask = if half = none then 0 else half_mask := by
  rw [compile_half] at hhalf
  split at hhalf
  · rename_i hwild
    cases hhalf
    exact ⟨(hex_val_wildcard hwild).symm, rfl⟩
  · obtain ⟨n, hn, hpair⟩ := Option.map_eq_some_iff.mp hhalf
    cases hpair
    exact ⟨hn.symm, rfl⟩

theorem compile_token_ok (hok : compile_token t = .ok cell) : Compiles (Numeral.strip_0x t) cell := by
  rw [compile_token] at hok
  generalize Numeral.strip_0x t = w at hok ⊢
  by_cases hempty : w = []
  · rw [if_pos hempty] at hok
    cases hok
  rw [if_neg hempty] at hok
  by_cases hfree : w = [63, 63] ∨ w = [42] ∨ w = [63]
  · rw [if_pos hfree] at hok
    cases hok
    rcases hfree with rfl | rfl | rfl
    · exact .inr ⟨63, 63, none, none, 0, 0, rfl, rfl, rfl, rfl⟩
    · exact .inl ⟨42, none, 0, rfl, rfl, rfl⟩
    · exact .inl ⟨63, none, 0, rfl, rfl, rfl⟩
  rw [if_neg hfree] at hok
  split at hok
  · rename_i c
    split at hok
    · rename_i hi mask hhalf
      cases hok
      refine .inl ⟨c, hi, mask, rfl, hhalf, ?_⟩
      rw [if_neg]
      rintro rfl
      rw [compile_half] at hhalf
      split at hhalf
      · rename_i hwild
        simp [is_wildcard] at hwild hfree
        tauto
      · obtain ⟨n, -, hpair⟩ := Option.map_eq_some_iff.mp hhalf
        cases hpair
    · cases hok
  · rename_i c c'
    split at hok
    · rename_i hi mask lo mask' hhalf hhalf'
      cases hok
      exact .inr ⟨c, c', hi, lo, mask, mask', rfl, hhalf, hhalf', rfl⟩
    · cases hok
  · cases hok

theorem and_high (d : UInt8) : (d &&& 0xF0).toNat = d.toNat / 16 * 16 := by
  have hall : ∀ n < 256, n &&& 0xF0 = n / 16 * 16 := by decide +kernel
  exact hall _ d.toNat_lt

theorem and_low (d : UInt8) : (d &&& 0x0F).toNat = d.toNat % 16 := by
  have hall : ∀ n < 256, n &&& 0x0F = n % 16 := by decide +kernel
  exact hall _ d.toNat_lt

theorem toNat_halves {hi lo : Option Nat} (hhi : hi.getD 0 < 16) (hlo : lo.getD 0 < 16) :
    (halves hi lo).toNat = hi.getD 0 * 16 + lo.getD 0 := by
  rw [halves]
  generalize hi.getD 0 = hi at hhi ⊢
  generalize lo.getD 0 = lo at hlo ⊢
  revert hi
  revert lo
  decide +kernel

/-- What a match with a mask says about the halves. -/
theorem cell_match_iff {byte mask : UInt8} :
    cell_match (byte, mask) d = true ↔ (d &&& mask).toNat = (byte &&& mask).toNat := by
  rw [cell_match, Bool.or_eq_true, beq_iff_eq, beq_iff_eq, UInt8.toNat_inj]
  refine ⟨fun h => ?_, .inr⟩
  rcases h with h | h
  · rw [show mask = 0 from h, UInt8.and_zero, UInt8.and_zero]
  · exact h

theorem cell_match_pair {c' mask mask' : UInt8} {hi lo : Option Nat} (hhi : compile_half 0xF0 c = some (hi, mask))
    (hlo : compile_half 0x0F c' = some (lo, mask')) :
    cell_match (halves hi lo, mask ||| mask') d = true ↔ denotes [c, c'] d := by
  obtain ⟨rfl, rfl⟩ := compile_half_cases hhi
  obtain ⟨rfl, rfl⟩ := compile_half_cases hlo
  have hlt := d.toNat_lt
  rw [cell_match_iff, denotes]
  cases hc : hex_val c with
  | none =>
    cases hc' : hex_val c' with
    | none => simp
    | some lo =>
      have hlo := hex_val_lt hc'
      rw [if_pos rfl, if_neg (Option.some_ne_none lo), UInt8.zero_or]
      rw [and_low, and_low, toNat_halves (by simp) (by simpa using hlo)]
      simp
      omega
  | some hi =>
    have hhi := hex_val_lt hc
    cases hc' : hex_val c' with
    | none =>
      rw [if_neg (Option.some_ne_none hi), if_pos rfl, UInt8.or_zero]
      rw [and_high, and_high, toNat_halves (by simpa using hhi) (by simp)]
      simp
    | some lo =>
      have hlo := hex_val_lt hc'
      have hfull : (0xF0 ||| 0x0F : UInt8) = -1 := rfl
      rw [if_neg (Option.some_ne_none hi), if_neg (Option.some_ne_none lo), hfull]
      rw [UInt8.and_neg_one, UInt8.and_neg_one, toNat_halves (by simpa using hhi) (by simpa using hlo)]
      simp
      omega

/-- A match with a word of one character wants 0 in the low half, whatever its digit is. -/
theorem cell_match_single {mask : UInt8} {hi : Option Nat} (hhi : compile_half 0xF0 c = some (hi, mask)) :
    cell_match (if hi = none then (0, 0) else (halves hi none, 0x0F)) d = true ↔ (hi ≠ none → d.toNat % 16 = 0) := by
  obtain ⟨rfl, -⟩ := compile_half_cases hhi
  cases hc : hex_val c with
  | none => simp [cell_match]
  | some hi =>
    have hlt := hex_val_lt hc
    rw [if_neg (Option.some_ne_none hi), cell_match_iff, and_low, and_low, toNat_halves (by simpa using hlt) (by simp)]
    simp

/-- Every word that is compiled stands for some byte. -/
theorem Compiles.exists_denotes (hw : Compiles w cell) : ∃ d, denotes w d := by
  obtain ⟨c, hi, mask, rfl, hhi, -⟩ | ⟨c, c', hi, lo, mask, mask', rfl, hhi, hlo, -⟩ := hw
  · cases hc : hex_val c with
    | none => exact ⟨0, fun n hn => by rw [hc] at hn; cases hn⟩
    | some digit =>
      refine ⟨UInt8.ofNat digit, fun n hn => ?_⟩
      have hlt := hex_val_lt hc
      rw [hc] at hn
      cases hn
      rw [UInt8.toNat_ofNat']
      omega
  · exact ⟨halves hi lo, (cell_match_pair hhi hlo).mp (cell_match_iff.mpr rfl)⟩

/-- A byte that a word stands for is matched unless the word is a digit other than 0. -/
theorem Compiles.match_iff (hw : Compiles w cell) (hd : denotes w d) : cell_match cell d = true ↔ Plain w := by
  obtain ⟨c, hi, mask, rfl, hhi, rfl⟩ | ⟨c, c', hi, lo, mask, mask', rfl, hhi, hlo, rfl⟩ := hw
  · rw [cell_match_single hhi]
    obtain ⟨rfl, -⟩ := compile_half_cases hhi
    constructor
    · rintro hzero c' n hsame hn
      cases hsame
      rw [← hd n hn]
      exact hzero (by rw [hn]; exact Option.some_ne_none n)
    · intro hplain hsome
      obtain ⟨n, hn⟩ := Option.ne_none_iff_exists'.mp hsome
      rw [hd n hn, hplain c n rfl hn]
  · rw [cell_match_pair hhi hlo]
    exact ⟨fun _ _ _ hsame => absurd (List.cons.inj hsame).2 (List.cons_ne_nil _ _), fun _ => hd⟩

theorem Compiles.match_iff_denotes (hw : Compiles w cell) (hplain : Plain w) : cell_match cell d = true ↔ denotes w d := by
  refine ⟨fun hmatch => ?_, fun hd => (hw.match_iff hd).mpr hplain⟩
  obtain ⟨c, hi, mask, rfl, hhi, rfl⟩ | ⟨c, c', hi, lo, mask, mask', rfl, hhi, hlo, rfl⟩ := hw
  · rw [cell_match_single hhi] at hmatch
    obtain ⟨rfl, -⟩ := compile_half_cases hhi
    intro n hn
    rw [hplain c n rfl hn]
    exact hmatch (by rw [hn]; exact Option.some_ne_none n)
  · exact (cell_match_pair hhi hlo).mp hmatch

theorem aob_match_iff (p : aob_pattern_t) (data : List UInt8) :
    aob_match p data = true ↔
      p.size ≤ data.length ∧ List.Forall₂ (cell_match · · = true) (p.bytes.zip p.nibble_mask) (data.take p.size) := by
  have hpos := p.size_pos
  have hcells : (p.bytes.zip p.nibble_mask).length = p.size := by
    rw [List.length_zip, p.same_length, Nat.min_self, aob_pattern_t.size]
  rw [aob_match]
  split
  · rename_i hshort
    simp only [Bool.false_eq_true, false_iff]
    omega
  · rename_i hlong
    have htake : (p.bytes.zip p.nibble_mask).zip data = (p.bytes.zip p.nibble_mask).zip (data.take p.size) := by
      rw [List.zip_eq_zip_take_min, hcells, Nat.min_eq_left (by omega), List.take_of_length_le (Nat.le_of_eq hcells)]
    rw [htake, List.all_eq_true, List.forall₂_iff_zip]
    have hlen : (data.take p.size).length = p.size := by
      rw [List.length_take]
      omega
    refine ⟨fun hall => ⟨by omega, by rw [hcells, hlen], fun h => hall _ h⟩, fun h x hx => h.2.2 hx⟩

theorem pattern_of_ok (hok : pattern_of cells = .ok p) : p.bytes.zip p.nibble_mask = cells := by
  rw [pattern_of] at hok
  split at hok
  · cases hok
  · cases hok
    rw [List.zip_map']
    simp

theorem mapM_ok {tokens : List (List UInt8)} (hok : tokens.mapM compile_token = .ok cells) :
    List.Forall₂ (fun t cell => compile_token t = .ok cell) tokens cells := by
  induction tokens generalizing cells with
  | nil =>
    cases hok
    exact .nil
  | cons t tokens ih =>
    rw [List.mapM_cons] at hok
    cases hcell : compile_token t with
    | error err => rw [hcell] at hok; cases hok
    | ok cell =>
      cases hcells : tokens.mapM compile_token with
      | error err => rw [hcell, hcells] at hok; cases hok
      | ok rest =>
        rw [hcell, hcells] at hok
        cases hok
        exact .cons hcell (ih hcells)

theorem forall₂_compact_pairs (hhex : ∀ c ∈ t, (hex_val c).isSome = true) :
    List.Forall₂ Compiles (chunks t) (compact_pairs t) := by
  fun_induction chunks t with
  | case1 c c' t ih =>
    obtain ⟨hc, hrest⟩ := List.forall_mem_cons.mp hhex
    obtain ⟨hc', ht⟩ := List.forall_mem_cons.mp hrest
    obtain ⟨hi, hhi⟩ := Option.isSome_iff_exists.mp hc
    obtain ⟨lo, hlo⟩ := Option.isSome_iff_exists.mp hc'
    have hwild : ∀ c n, hex_val c = some n → ¬ is_wildcard c = true := by
      intro c n hn hwild
      rw [hex_val_wildcard hwild] at hn
      cases hn
    refine .cons (.inr ⟨c, c', some hi, some lo, 0xF0, 0x0F, rfl, ?_, ?_, ?_⟩) (ih ht)
    · rw [compile_half, if_neg (hwild c hi hhi), hhi, Option.map_some]
    · rw [compile_half, if_neg (hwild c' lo hlo), hlo, Option.map_some]
    · rw [hhi, hlo]
      rfl
  | case2 t hpair =>
    cases t with
    | nil => exact .nil
    | cons c t =>
      cases t with
      | nil => exact .nil
      | cons c' t => exact absurd rfl (hpair c c' t)

theorem is_compact_iff :
    is_compact t = true ↔ 2 < t.length ∧ t.length % 2 = 0 ∧ ∀ c ∈ t, (hex_val c).isSome = true := by
  simp [is_compact, and_assoc]

/-- Without its prefix a compact hex string has no wildcard before either. -/
theorem no_wildcard_of_compact (hcompact : is_compact (Numeral.strip_0x t) = true) : t.any is_wildcard = false := by
  obtain ⟨-, -, hhex⟩ := is_compact_iff.mp hcompact
  have hwild : ∀ c, (hex_val c).isSome = true → is_wildcard c = false := by
    intro c hc
    by_contra hnot
    rw [hex_val_wildcard (eq_true_of_ne_false hnot)] at hc
    cases hc
  rw [List.any_eq_false]
  intro c hc
  rw [Bool.not_eq_true]
  unfold Numeral.strip_0x at hhex
  split at hhex
  · rcases List.mem_cons.mp hc with rfl | hc
    · rfl
    rcases List.mem_cons.mp hc with rfl | hc
    · rfl
    exact hwild c (hhex c hc)
  · rcases List.mem_cons.mp hc with rfl | hc
    · rfl
    rcases List.mem_cons.mp hc with rfl | hc
    · rfl
    exact hwild c (hhex c hc)
  · exact hwild c (hhex c hc)

theorem length_strip_0x_le (t : List UInt8) : (Numeral.strip_0x t).length ≤ t.length := by
  unfold Numeral.strip_0x
  split
  · rw [List.length_cons, List.length_cons]
    omega
  · rw [List.length_cons, List.length_cons]
    omega
  · exact Nat.le_refl _

theorem any_tokenize (cur text : List UInt8) :
    (tokenize cur text).any (·.any is_wildcard) = (cur.any is_wildcard || text.any is_wildcard) := by
  induction text generalizing cur with
  | nil =>
    rw [tokenize]
    by_cases hcur : cur = [] <;> simp [hcur]
  | cons c text ih =>
    rw [tokenize]
    split
    · rename_i hsep
      have hc : is_wildcard c = false := by
        rw [is_separator] at hsep
        simp only [Bool.or_eq_true, decide_eq_true_eq] at hsep
        rcases hsep with (rfl | rfl) | rfl <;> rfl
      by_cases hcur : cur = [] <;> simp [hcur, ih, hc]
    · simp [ih, Bool.or_assoc]

/-- The tokens that are no compact hex string are compiled one by one. -/
theorem forall₂_of_mapM {tokens : List (List UInt8)} (hok : (do pattern_of (← tokens.mapM compile_token)) = .ok p) :
    List.Forall₂ Compiles (tokens.map Numeral.strip_0x) (p.bytes.zip p.nibble_mask) := by
  cases hcells : tokens.mapM compile_token with
  | error err =>
    rw [hcells] at hok
    cases hok
  | ok cells =>
    rw [hcells] at hok
    rw [pattern_of_ok hok, List.forall₂_map_left_iff]
    exact (mapM_ok hcells).imp fun _ _ => compile_token_ok

/-- An accepted text is compiled word by word. -/
theorem aob_compile_ok (hok : aob_compile text = .ok p) : List.Forall₂ Compiles (words text) (p.bytes.zip p.nibble_mask) := by
  have hwild := any_tokenize [] text
  rw [aob_compile] at hok
  rw [words, ← tokenize_nil]
  generalize tokenize [] text = tokens at hok hwild ⊢
  cases tokens with
  | nil => cases hok
  | cons t ts =>
    rw [if_neg (List.cons_ne_nil _ _)] at hok
    cases ts with
    | nil =>
      rw [List.any_cons, List.any_nil, List.any_nil, Bool.or_false, Bool.false_or] at hwild
      rw [List.map_cons, List.map_nil]
      dsimp only at hok ⊢
      rw [← hwild] at hok
      by_cases hcompact : is_compact (Numeral.strip_0x t) = true
      · have hlen := (is_compact_iff.mp hcompact).1.trans_le (length_strip_0x_le t)
        rw [if_pos hlen, no_wildcard_of_compact hcompact, hcompact, Bool.not_false, Bool.true_and, if_pos rfl] at hok
        rw [if_pos hcompact, pattern_of_ok hok]
        exact forall₂_compact_pairs (is_compact_iff.mp hcompact).2.2
      · have hnot : is_compact (if t.length > 2 then Numeral.strip_0x t else t) = false := by
          split
          · exact eq_false_of_ne_true hcompact
          · rw [is_compact]
            simp
            omega
        rw [hnot, Bool.and_false, if_neg Bool.false_ne_true] at hok
        rw [if_neg hcompact]
        exact forall₂_of_mapM hok
    | cons t' ts => exact forall₂_of_mapM hok

theorem forall₂_match_iff_denotes {ws : List (List UInt8)} (hws : List.Forall₂ Compiles ws cells) (hplain : ∀ w ∈ ws, Plain w) :
    List.Forall₂ (cell_match · · = true) cells data ↔ List.Forall₂ denotes ws data := by
  induction hws generalizing data with
  | nil => rw [List.forall₂_nil_left_iff, List.forall₂_nil_left_iff]
  | cons hw _ ih =>
    obtain ⟨hplain, hrest⟩ := List.forall_mem_cons.mp hplain
    cases data with
    | nil => simp
    | cons d data => rw [List.forall₂_cons, List.forall₂_cons, hw.match_iff_denotes hplain, ih hrest]

theorem plain_of_forall₂_match {ws : List (List UInt8)} (hws : List.Forall₂ Compiles ws cells)
    (hdenotes : List.Forall₂ denotes ws data) (hmatch : List.Forall₂ (cell_match · · = true) cells data) : ∀ w ∈ ws, Plain w := by
  induction hws generalizing data with
  | nil => exact fun _ hw => absurd hw List.not_mem_nil
  | cons hw _ ih =>
    cases hdenotes with
    | cons hd hdenotes =>
      cases hmatch with
      | cons hcell hmatch => exact List.forall_mem_cons.mpr ⟨(hw.match_iff hd).mp hcell, ih hdenotes hmatch⟩

theorem exists_forall₂_denotes {ws : List (List UInt8)} (hws : List.Forall₂ Compiles ws cells) :
    ∃ data, List.Forall₂ denotes ws data := by
  induction hws with
  | nil => exact ⟨[], .nil⟩
  | cons hw _ ih =>
    obtain ⟨d, hd⟩ := hw.exists_denotes
    obtain ⟨data, hdata⟩ := ih
    exact ⟨d :: data, .cons hd hdata⟩

theorem size_eq_length_words (hok : aob_compile text = .ok p) : p.size = (words text).length := by
  rw [(aob_compile_ok hok).length_eq, List.length_zip, p.same_length, Nat.min_self, aob_pattern_t.size]

end

/-- Of an accepted text the pattern matches the buffers that the text stands for, in every buffer, exactly if no
word of it is one single digit other than 0. -/
theorem aob_match_iff_denotes {text : List UInt8} {p : aob_pattern_t} (hok : aob_compile text = .ok p) :
    (∀ data, aob_match p data = true ↔ Denotes text data) ↔ ∀ w ∈ words text, Plain w := by
  have hcells := aob_compile_ok hok
  have hsize := size_eq_length_words hok
  constructor
  · intro hall
    obtain ⟨data, hdata⟩ := exists_forall₂_denotes hcells
    have htake : data.take (words text).length = data := List.take_of_length_le (Nat.le_of_eq hdata.length_eq.symm)
    have hmatch := (hall data).mpr ⟨Nat.le_of_eq hdata.length_eq, by rw [htake]; exact hdata⟩
    rw [aob_match_iff, hsize, htake] at hmatch
    exact plain_of_forall₂_match hcells hdata hmatch.2
  · intro hplain data
    rw [aob_match_iff, hsize, Denotes, forall₂_match_iff_denotes hcells hplain]

/-- The text `41 ?`. -/
theorem aob_match_iff_denotes_spaced :
    ∃ p, aob_compile [52, 49, 32, 63] = .ok p ∧
      ((∀ data, aob_match p data = true ↔ Denotes [52, 49, 32, 63] data) ↔ ∀ w ∈ words [52, 49, 32, 63], Plain w) :=
  ⟨_, rfl, aob_match_iff_denotes rfl⟩

/-- The digit of `A` is lost: its low half has to be 0. -/
theorem lone_digit_lost :
    ¬ ∀ text p, aob_compile text = .ok p → ∀ data, aob_match p data = true ↔ Denotes text data := by
  intro hall
  have hmatch := (hall [65] _ rfl [0x0A]).mpr ⟨by decide, ?_⟩
  · revert hmatch
    decide
  · refine .cons (fun n hn => ?_) .nil
    cases hn
    rfl

end slop.core.memory
