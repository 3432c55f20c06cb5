import ReverseSlop.Core.Memory.Memscan.Operands

namespace slop.core.memory.integral

variable {w : value_width_t} {v : Int} {bits b b1 b2 : BitVec 64} {data : List UInt8}

private theorem load_bits_eq (hlength : data.length = value_size w) : load_bits data (value_size w) = BitVec.ofNat 64 (Bytes.of_le data) := by
  have hfold : ∀ s : List UInt8, s.foldr (fun byte acc => byte.toNat + 256 * acc) 0 = Bytes.of_le s := by
    intro s
    induction s with
    | nil => rfl
    | cons c s ih => rw [List.foldr_cons, ih, Bytes.of_le]
  rw [load_bits, List.take_of_length_le hlength.le, hfold]

private theorem fits_load_bits (hlength : data.length = value_size w) : Fits w (load_bits data (value_size w)) := by
  have hlt := Bytes.of_le_lt data
  rw [hlength, show 256 = 2 ^ 8 from rfl, ← Nat.pow_mul] at hlt
  rw [Fits, load_bits_eq hlength, BitVec.toNat_ofNat]
  exact Nat.lt_of_le_of_lt (Nat.mod_le _ _) hlt

/-- Each value of the width is the one of some bytes. -/
theorem exists_load_bits (h : Fits w bits) : ∃ data : List UInt8, data.length = value_size w ∧ load_bits data (value_size w) = bits := by
  rw [Fits, Nat.pow_mul] at h
  have hlength := Bytes.length_le (value_size w) bits.toNat
  refine ⟨_, hlength, ?_⟩
  rw [load_bits_eq hlength, Bytes.of_le_le h, BitVec.ofNat_toNat, BitVec.setWidth_eq]

private theorem fits_parse {strtod : List UInt8 → Float × List UInt8} {text : List UInt8} (hw : width_is_float w = false)
    (hparse : parse_value_text strtod w text = some b) : Fits w b := by
  simp only [parse_value_text, hw, Bool.false_eq_true, if_false] at hparse
  grind [fits_mask_bits]

/-- The scan for some bits accepts the slots with these bytes and no others. -/
def ExactScan (w : value_width_t) (b : BitVec 64) : Prop :=
  ∀ (data : List UInt8) (prev : BitVec 64), data.length = value_size w →
    int_check .exact_value w (value_to_double w b) 0 (load_bits data (value_size w)) prev =
      some (decide (load_bits data (value_size w) = b))

/-- The scan between two values accepts the slots with a value in between and no others. -/
def BetweenScan (w : value_width_t) (b1 b2 : BitVec 64) : Prop :=
  ∀ (data : List UInt8) (prev : BitVec 64), data.length = value_size w →
    int_check .between w (value_to_double w b1) (value_to_double w b2) (load_bits data (value_size w)) prev =
      some (decide (value w b1 ≤ value w (load_bits data (value_size w)) ∧ value w (load_bits data (value_size w)) ≤ value w b2))

/-- The bounds of a scan keep what is between them: they are doubles themselves, or, if nothing is between them, stay apart as
doubles. Both are on one side of the middle of the unsigned range. -/
structure BoundsKept (w : value_width_t) (v1 v2 : Int) : Prop where
  below : Binary64.round v1 ≤ highest w ∧ Binary64.round v2 ≤ highest w
  kept : v1 ≤ v2 → Binary64.Representable v1.natAbs ∧ Binary64.Representable v2.natAbs
  apart : v2 < v1 → Binary64.round v2 ≠ Binary64.round v1
  side : w = .u64 → (Binary64.round v1 < 2 ^ 63 ↔ Binary64.round v2 < 2 ^ 63)

/-- The least number of a width is a double. -/
theorem lowest_le_round (hv : lowest w ≤ v) : lowest w ≤ Binary64.round v := by
  have hlowest : Binary64.round (lowest w) = lowest w := by
    rw [lowest]
    split
    · exact Binary64.round_neg_pow _
    · rfl
  exact hlowest ▸ Binary64.round_mono hv

private theorem int_check_undefined {type : scan_type_t} {v v' : Int} (hv : ¬ v ≤ highest w ∨ ¬ v' ≤ highest w) (curr prev : BitVec 64) :
    int_check type w v v' curr prev = none := by
  have hnone : ∀ {x : Int}, ¬ x ≤ highest w → operand w x = none := fun hx => by
    rw [operand, value_from_double, if_neg (fun h => hx h.2), Option.map_none]
  rw [int_check]
  rcases hv with hv | hv
  · rw [hnone hv]
    rfl
  · rw [hnone hv]
    cases operand w v <;> rfl

private theorem exactScan_iff (hw : width_is_float w = false) (hb : Fits w b) :
    ExactScan w b ↔ Binary64.Representable (value w b).natAbs := by
  have hrange := value_mem_range hb
  rw [← Binary64.round_eq_self_iff]
  constructor
  · intro hscan
    obtain ⟨data, hlength, hload⟩ := exists_load_bits hb
    have hcheck := hscan data 0 hlength
    by_cases hbelow : Binary64.round (value w b) ≤ highest w
    · rw [value_to_double, hload, exact_check hw ⟨lowest_le_round hrange.1, hbelow⟩ hb, Option.some_inj, decide_eq_decide] at hcheck
      exact (hcheck.mpr rfl).symm
    · rw [value_to_double, int_check_undefined (Or.inl hbelow)] at hcheck
      cases hcheck
  · intro hround data prev hlength
    have hload := fits_load_bits hlength
    rw [value_to_double, hround, exact_check hw hrange hload, Option.some_inj, decide_eq_decide]
    exact ⟨value_injective hload hb, congrArg _⟩

/-- What a scan between two values accepts, in numbers. -/
theorem betweenScan_iff_forall (hw : width_is_float w = false) (hb1 : Fits w b1) (hb2 : Fits w b2) :
    BetweenScan w b1 b2 ↔
      (Binary64.round (value w b1) ≤ highest w ∧ Binary64.round (value w b2) ≤ highest w) ∧
      ∀ x, lowest w ≤ x → x ≤ highest w →
        (wrapped w (Binary64.round (value w b1)) ≤ wrapped w x ∧ wrapped w x ≤ wrapped w (Binary64.round (value w b2)) ↔
          value w b1 ≤ x ∧ x ≤ value w b2) := by
  have hlow1 := lowest_le_round (value_mem_range hb1).1
  have hlow2 := lowest_le_round (value_mem_range hb2).1
  constructor
  · intro hscan
    have hbelow : Binary64.round (value w b1) ≤ highest w ∧ Binary64.round (value w b2) ≤ highest w := by
      by_contra hnot
      obtain ⟨data, hlength, -⟩ := exists_load_bits hb1
      have hcheck := hscan data 0 hlength
      rw [value_to_double, value_to_double, int_check_undefined (not_and_or.mp hnot)] at hcheck
      cases hcheck
    refine ⟨hbelow, fun x hlow hhigh => ?_⟩
    obtain ⟨bits, -, hfits, rfl⟩ := value_from_double_spec ⟨hlow, hhigh⟩
    obtain ⟨data, hlength, rfl⟩ := exists_load_bits hfits
    have hcheck := hscan data 0 hlength
    rwa [value_to_double, value_to_double, between_check hw ⟨hlow1, hbelow.1⟩ ⟨hlow2, hbelow.2⟩ hfits, Option.some_inj,
      decide_eq_decide] at hcheck
  · rintro ⟨hbelow, hall⟩ data prev hlength
    have hfits := fits_load_bits hlength
    obtain ⟨hlow, hhigh⟩ := value_mem_range hfits
    rw [value_to_double, value_to_double, between_check hw ⟨hlow1, hbelow.1⟩ ⟨hlow2, hbelow.2⟩ hfits, Option.some_inj,
      decide_eq_decide]
    exact hall _ hlow hhigh

/-- Where a number of the width is in the signed 64-bit space. -/
theorem wrapped_cases {x : Int} (hlow : lowest w ≤ x) (hhigh : x ≤ highest w) :
    (w ≠ .u64 ∧ wrapped w x = x) ∨ (w = .u64 ∧ 0 ≤ x ∧ x < 2 ^ 63 ∧ wrapped w x = x) ∨
      (w = .u64 ∧ 2 ^ 63 ≤ x ∧ x < 2 ^ 64 ∧ wrapped w x = x - 2 ^ 64) := by
  rw [wrapped]
  by_cases hw : w = .u64
  · subst hw
    simp only [lowest, highest, width_is_signed, value_size] at *
    grind
  · exact Or.inl ⟨hw, if_neg (fun h => hw h.1)⟩

private theorem betweenScan_iff (hw : width_is_float w = false) (hb1 : Fits w b1) (hb2 : Fits w b2) :
    BetweenScan w b1 b2 ↔ BoundsKept w (value w b1) (value w b2) := by
  obtain ⟨hlow1, hhigh1⟩ := value_mem_range hb1
  obtain ⟨hlow2, hhigh2⟩ := value_mem_range hb2
  have hround1 := lowest_le_round hlow1
  have hround2 := lowest_le_round hlow2
  rw [betweenScan_iff_forall hw hb1 hb2]
  generalize value w b1 = v1 at *
  generalize value w b2 = v2 at *
  have hmono : v1 ≤ v2 → Binary64.round v1 ≤ Binary64.round v2 := Binary64.round_mono
  have hmono' : v2 ≤ v1 → Binary64.round v2 ≤ Binary64.round v1 := Binary64.round_mono
  have heq1 := Binary64.round_eq_self_iff (z := v1)
  have heq2 := Binary64.round_eq_self_iff (z := v2)
  have hv1 := wrapped_cases hlow1 hhigh1
  have hv2 := wrapped_cases hlow2 hhigh2
  constructor
  · rintro ⟨hbelow, hall⟩
    -- the bounds themselves, exact and as doubles, are the numbers to try
    have htry1 := hall v1 hlow1 hhigh1
    have htry2 := hall v2 hlow2 hhigh2
    have htry3 := hall _ hround1 hbelow.1
    have htry4 := hall _ hround2 hbelow.2
    have hr1 := wrapped_cases hround1 hbelow.1
    have hr2 := wrapped_cases hround2 hbelow.2
    clear hall
    refine ⟨hbelow, fun hle => ?_, fun hlt => ?_, ?_⟩
    · rw [← heq1, ← heq2]
      grind
    · grind
    · grind
  · rintro ⟨hbelow, hkept, hapart, hside⟩
    refine ⟨hbelow, fun x hlow hhigh => ?_⟩
    have hx := wrapped_cases hlow hhigh
    have hr1 := wrapped_cases hround1 hbelow.1
    have hr2 := wrapped_cases hround2 hbelow.2
    rw [← heq1, ← heq2] at hkept
    grind

/-- An exact scan is exact for the numbers that are doubles, and a scan between two numbers is when its bounds are kept. -/
theorem scans_exact_iff (strtod : List UInt8 → Float × List UInt8) (w : value_width_t) (hw : width_is_float w = false) :
    (∀ text b, parse_value_text strtod w text = some b → (ExactScan w b ↔ Binary64.Representable (value w b).natAbs)) ∧
    ∀ text1 text2 b1 b2, parse_value_text strtod w text1 = some b1 → parse_value_text strtod w text2 = some b2 →
      (BetweenScan w b1 b2 ↔ BoundsKept w (value w b1) (value w b2)) :=
  ⟨fun _ _ hparse => exactScan_iff hw (fits_parse hw hparse),
    fun _ _ _ _ hparse1 hparse2 => betweenScan_iff hw (fits_parse hw hparse1) (fits_parse hw hparse2)⟩

/-- A number that is no double, as a text. -/
theorem parse_odd (strtod : List UInt8 → Float × List UInt8) :
    parse_value_text strtod .u64 (Numeral.ascii "9007199254740993") = some (BitVec.ofNat 64 9007199254740993) := by
  rfl

theorem odd_scan_exact_iff :
    ExactScan .u64 (BitVec.ofNat 64 9007199254740993) ↔
      Binary64.Representable (value .u64 (BitVec.ofNat 64 9007199254740993)).natAbs :=
  (scans_exact_iff (fun s => (0, s)) .u64 rfl).1 _ _ (parse_odd _)

/-- The scan for `2 ^ 53 + 1` looks for `2 ^ 53`. -/
theorem odd_not_found : ¬ ∀ (strtod : List UInt8 → Float × List UInt8) (w : value_width_t), width_is_float w = false →
    (∀ text b, parse_value_text strtod w text = some b → ExactScan w b) ∧
    ∀ text1 text2 b1 b2, parse_value_text strtod w text1 = some b1 → parse_value_text strtod w text2 = some b2 →
      BetweenScan w b1 b2 := by
  intro hexact
  have hodd := (hexact (fun s => (0, s)) .u64 rfl).1 _ _ (parse_odd _)
  have hfits : Fits .u64 (BitVec.ofNat 64 9007199254740993) := BitVec.isLt _
  exact absurd ((exactScan_iff rfl hfits).mp hodd) (by decide)

end slop.core.memory.integral
