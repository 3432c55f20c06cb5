import Mathlib.Algebra.Group.Nat.Defs
import ReverseSlop.Library.Positions

namespace slop.core.disasm.strings

structure string_hit_t where
  va : UInt64
  text : List UInt8
  utf16 : Bool
  deriving DecidableEq

structure string_stats_t where
  scanned : Nat := 0
  hits : Nat := 0
  truncated : Bool := false

def ascii_printable (c : UInt8) : Bool := (0x20 ≤ c && c ≤ 0x7E) || c = 0x09 || c = 0x0A || c = 0x0D

def utf16_printable (lo hi : UInt8) : Bool := hi = 0 && ascii_printable lo

/-- The longest text that is kept. -/
def max_text : Nat := 4096

/-- The printable character at a position. -/
def ascii_at (data : List UInt8) (i : Nat) : Option UInt8 := data[i]?.filter ascii_printable

/-- The printable character in two bytes. A read behind the buffer, which is made only for a minimum of no character,
has no effect. -/
def utf16_at (data : List UInt8) (i : Nat) : Option UInt8 :=
  match data[i]?, data[i + 1]? with
  | some lo, some hi => if utf16_printable lo hi then some lo else none
  | _, _ => none

/-- At most `room` characters, each `width` bytes behind the one before. -/
def run (char_at : Nat → Option UInt8) (width : Nat) : Nat → Nat → List UInt8
  | 0, _ => []
  | room + 1, j =>
    match char_at j with
    | some c => c :: run char_at width room (j + width)
    | none => []

/-- A string before it has an address. -/
structure found_t where
  off : Nat
  text : List UInt8
  utf16 : Bool
  deriving DecidableEq

def found_t.width (f : found_t) : Nat := if f.utf16 then 2 else 1

/-- The position of the terminator. -/
def found_t.stop (f : found_t) : Nat := f.off + f.width * f.text.length

def found_t.hit (va_base : UInt64) (f : found_t) : string_hit_t := ⟨va_base + f.off.toUInt64, f.text, f.utf16⟩

/-- `2 * static_cast<int>(min_chars)` as it is added to a size. -/
def doubled (min_chars : Nat) : Nat := ((2 * BitVec.ofNat 32 min_chars).signExtend 64).toNat

def utf16_string (data : List UInt8) (min_chars i : Nat) : Option found_t :=
  if (i + doubled min_chars) % 2 ^ 64 ≤ data.length ∧ (utf16_at data i).isSome then
    let s := run (utf16_at data) 2 max_text i
    let j := i + 2 * s.length
    if min_chars ≤ s.length ∧ data[j]? = some 0 ∧ data[j + 1]? = some 0 then some ⟨i, s, true⟩ else none
  else none

def whitespace (c : UInt8) : Bool := c = 0x20 || c = 0x09 || c = 0x0D || c = 0x0A

def ascii_string (data : List UInt8) (min_chars i : Nat) : Option found_t :=
  let s := run (ascii_at data) 1 max_text i
  if data[i + s.length]? = some 0 ∧ min_chars ≤ s.length then
    -- skip pure-whitespace noise
    if s.any (fun c => !whitespace c) then some ⟨i, s, false⟩ else none
  else none

/-- What the scan finds at a position, and where it goes on. -/
def step (data : List UInt8) (min_chars i : Nat) : Option found_t × Nat :=
  match utf16_string data min_chars i with
  | some f => (some f, f.stop + 2)
  | none =>
    if (ascii_at data i).isSome then
      match ascii_string data min_chars i with
      | some f => (some f, f.stop + 1)
      | none => (none, max (i + (run (ascii_at data) 1 max_text i).length) (i + 1))
    else (none, i + 1)

theorem off_utf16_string {data : List UInt8} {min_chars i : Nat} {f : found_t} (h : utf16_string data min_chars i = some f) :
    f = ⟨i, run (utf16_at data) 2 max_text i, true⟩ := by
  rw [utf16_string] at h
  split at h
  · dsimp only at h
    split at h
    · exact (Option.some.inj h).symm
    · cases h
  · cases h

theorem off_ascii_string {data : List UInt8} {min_chars i : Nat} {f : found_t} (h : ascii_string data min_chars i = some f) :
    f = ⟨i, run (ascii_at data) 1 max_text i, false⟩ := by
  rw [ascii_string] at h
  split at h
  · split at h
    · exact (Option.some.inj h).symm
    · cases h
  · cases h

theorem step_forward (data : List UInt8) (min_chars : Nat) : Steps.Forward (step data min_chars) := by
  intro i
  rw [step]
  split
  case h_1 f hfound =>
    rw [off_utf16_string hfound, found_t.stop]
    dsimp only
    omega
  · split
    · split
      case h_1 f hfound =>
        rw [off_ascii_string hfound, found_t.stop]
        dsimp only
        omega
      · exact Nat.lt_of_lt_of_le (Nat.lt_succ_self i) (Nat.le_max_right _ _)
    · exact Nat.lt_succ_self i

/-- The loop from a position on, with what has been found. -/
def extract_loop (data : List UInt8) (va_base : UInt64) (min_chars max_results i : Nat) (out : List string_hit_t)
    (scanned : Nat) : List string_hit_t × string_stats_t :=
  if _h : i < data.length then
    match (step data min_chars i).1 with
    | some f =>
      let out := out ++ [f.hit va_base]
      if out.length ≥ max_results then (out, { scanned := scanned + 1, hits := out.length, truncated := true })
      else extract_loop data va_base min_chars max_results (step data min_chars i).2 out (scanned + 1)
    | none => extract_loop data va_base min_chars max_results (step data min_chars i).2 out (scanned + 1)
  else (out, { scanned, hits := out.length })
termination_by data.length - i
decreasing_by
  all_goals
    have hlt := step_forward data min_chars i
    omega

def extract_strings (data : List UInt8) (va_base : UInt64) (min_chars max_results : Nat) :
    List string_hit_t × string_stats_t :=
  extract_loop data va_base min_chars max_results 0 [] 0

/-- All strings of a buffer, as they are found without a limit on their number. -/
def all_strings (data : List UInt8) (min_chars : Nat) : List found_t :=
  Steps.scan (step data min_chars) data.length (step_forward data min_chars) 0

/-- A run of characters that cannot be made longer. -/
structure MaximalRun (char_at : Nat → Option UInt8) (width p : Nat) (text : List UInt8) : Prop where
  nonempty : text ≠ []
  chars : ∀ k < text.length, char_at (p + width * k) = text[k]?
  first : ∀ q, p = q + width → char_at q = none
  last : char_at (p + width * text.length) = none

section

variable {char_at : Nat → Option UInt8} {width p q m : Nat} {text : List UInt8} {data : List UInt8} {f : found_t}

theorem run_eq {room : Nat} (hroom : text.length ≤ room) (hchars : ∀ k < text.length, char_at (p + width * k) = text[k]?)
    (hlast : char_at (p + width * text.length) = none) : run char_at width room p = text := by
  induction text generalizing p room with
  | nil =>
    have hnone : char_at p = none := hlast
    cases room with
    | zero => rfl
    | succ room => rw [run, hnone]
  | cons c text ih =>
    cases room with
    | zero => cases hroom
    | succ room =>
      have hfirst : char_at p = some c := hchars 0 (Nat.succ_pos _)
      have hnext : ∀ k, p + width + width * k = p + width * (k + 1) := by
        intro k
        rw [Nat.mul_succ]
        omega
      rw [run, hfirst]
      refine congrArg (c :: ·) (ih (Nat.le_of_succ_le_succ hroom) (fun k hk => ?_) ?_)
      · rw [hnext]
        exact hchars (k + 1) (Nat.succ_lt_succ hk)
      · rw [hnext]
        exact hlast

theorem char_at_run {room k : Nat} (hk : k < (run char_at width room p).length) : (char_at (p + width * k)).isSome := by
  induction room generalizing p k with
  | zero => cases hk
  | succ room ih =>
    rw [run] at hk
    split at hk
    case h_1 c hc =>
      cases k with
      | zero => exact Option.isSome_iff_exists.mpr ⟨c, hc⟩
      | succ k =>
        have hrest := ih (Nat.lt_of_succ_lt_succ hk)
        rw [Nat.mul_succ, Nat.add_comm _ width, ← Nat.add_assoc]
        exact hrest
    · cases hk

theorem run_pos {room : Nat} (hroom : 0 < room) (h : (char_at p).isSome) : 0 < (run char_at width room p).length := by
  obtain ⟨c, hc⟩ := Option.isSome_iff_exists.mp h
  obtain ⟨room, rfl⟩ := Nat.exists_eq_succ_of_ne_zero (Nat.ne_of_gt hroom)
  rw [run, hc]
  exact Nat.succ_pos _

theorem utf16_at_isSome (h : (utf16_at data p).isSome) : (ascii_at data p).isSome ∧ data[p + 1]? = some 0 := by
  rw [utf16_at] at h
  split at h
  case h_1 lo hi hlo hhi =>
    split at h
    case isTrue hprintable =>
      rw [utf16_printable, Bool.and_eq_true, decide_eq_true_iff] at hprintable
      rw [ascii_at, hlo, hhi, hprintable.1, Option.filter_some, if_pos hprintable.2]
      exact ⟨rfl, rfl⟩
    · cases h
  · cases h

theorem ascii_at_zero (h : data[p]? = some 0) : ascii_at data p = none := by
  rw [ascii_at, h]
  rfl

/-- A step finds a string of two bytes for a character, or one of one byte, or goes over the characters that it has seen. -/
theorem step_cases (data : List UInt8) (m i : Nat) :
    (∃ f, utf16_string data m i = some f ∧ step data m i = (some f, f.stop + 2)) ∨
      (utf16_string data m i = none ∧ ∃ f, ascii_string data m i = some f ∧ step data m i = (some f, f.stop + 1)) ∨
      (utf16_string data m i = none ∧ ascii_string data m i = none ∧
        step data m i = (none, max (i + (run (ascii_at data) 1 max_text i).length) (i + 1))) := by
  rw [step]
  cases hutf : utf16_string data m i with
  | some f => exact .inl ⟨f, rfl, rfl⟩
  | none =>
    right
    dsimp only
    split
    · cases hascii : ascii_string data m i with
      | some f => exact .inl ⟨rfl, f, rfl, rfl⟩
      | none => exact .inr ⟨rfl, rfl, rfl⟩
    case isFalse hnot =>
      have hempty : run (ascii_at data) 1 max_text i = [] := by
        rw [max_text, run, Option.not_isSome_iff_eq_none.mp hnot]
      right
      rw [ascii_string, hempty]
      simp

/-- A string of two bytes for a character is not empty and ends with two zeros. -/
theorem utf16_string_spec (h : utf16_string data m q = some f) :
    f = ⟨q, run (utf16_at data) 2 max_text q, true⟩ ∧ (utf16_at data q).isSome ∧
      data[f.stop]? = some 0 ∧ data[f.stop + 1]? = some 0 := by
  obtain rfl := off_utf16_string h
  rw [utf16_string] at h
  split at h
  case isTrue hguard =>
    dsimp only at h
    split at h
    case isTrue hend => exact ⟨rfl, hguard.2, hend.2⟩
    · cases h
  · cases h

/-- A position inside a string of two bytes for a character has a zero or a character with one before it. -/
theorem inside_utf16 (h : utf16_string data m q = some f) (hlo : q < p) (hhi : p < f.stop + 2) :
    data[p]? = some 0 ∨ (p < f.stop ∧ ∃ q', p = q' + 2 ∧ (utf16_at data q').isSome) := by
  obtain ⟨hf, -, hzero, hzero'⟩ := utf16_string_spec h
  have hstop : f.stop = q + 2 * f.text.length := by rw [hf]; rfl
  have htext : f.text = run (utf16_at data) 2 max_text q := by rw [hf]
  have hchar : ∀ k < f.text.length, (utf16_at data (q + 2 * k)).isSome := fun k hk => char_at_run (htext ▸ hk)
  obtain ⟨k, hk⟩ : ∃ k, p = q + 2 * k ∨ p = q + 2 * k + 1 := ⟨(p - q) / 2, by omega⟩
  rcases hk with hk | hk
  · by_cases hin : p < f.stop
    · exact .inr ⟨hin, q + 2 * (k - 1), by omega, hchar (k - 1) (by omega)⟩
    · obtain rfl : p = f.stop := by omega
      exact .inl hzero
  · left
    by_cases hin : p < f.stop
    · have hsecond := (utf16_at_isSome (hchar k (by omega))).2
      rwa [show q + 2 * k + 1 = p by omega] at hsecond
    · obtain rfl : p = f.stop + 1 := by omega
      exact hzero'

/-- A position to which characters of one byte go on has one of them before it. -/
theorem inside_ascii (hlo : q < p) (hhi : p ≤ q + (run (ascii_at data) 1 max_text q).length) :
    ∃ q', p = q' + 1 ∧ (ascii_at data q').isSome := by
  have hlt : p - 1 - q < (run (ascii_at data) 1 max_text q).length := by omega
  have hchar := char_at_run hlt
  rw [show q + 1 * (p - 1 - q) = p - 1 by omega] at hchar
  exact ⟨p - 1, by omega, hchar⟩

theorem passed_cases (hlo : q < p) (hhi : p < (step data m q).2) :
    (∃ f, (step data m q).1 = some f ∧ f.utf16 ∧ f.off = q ∧
      (data[p]? = some 0 ∨ (p < f.stop ∧ ∃ q', p = q' + 2 ∧ (utf16_at data q').isSome))) ∨
      ∃ q', p = q' + 1 ∧ (ascii_at data q').isSome := by
  rcases step_cases data m q with ⟨f, hutf, hstep⟩ | ⟨-, f, hascii, hstep⟩ | ⟨-, -, hstep⟩
  · rw [hstep] at hhi
    have hoff := off_utf16_string hutf
    exact .inl ⟨f, by rw [hstep], by rw [hoff], by rw [hoff], inside_utf16 hutf hlo hhi⟩
  · have hstop : f.stop = q + 1 * (run (ascii_at data) 1 max_text q).length := by rw [off_ascii_string hascii]; rfl
    rw [hstep] at hhi
    exact .inr (inside_ascii hlo (by dsimp only at hhi; omega))
  · rw [hstep] at hhi
    exact .inr (inside_ascii hlo (by dsimp only at hhi; omega))

theorem doubled_eq (hm : m ≤ max_text) : doubled m = 2 * m := by
  rw [max_text] at hm
  have hproduct : (2 * BitVec.ofNat 32 m).toNat = 2 * m := by
    simp [BitVec.toNat_mul]
    omega
  rw [doubled, BitVec.signExtend_eq_setWidth_of_msb_false, BitVec.toNat_setWidth, hproduct]
  · omega
  · rw [BitVec.msb_eq_false_iff_two_mul_lt, hproduct]
    omega

theorem mem_all_strings : f ∈ all_strings data m ↔
    ∃ q, Steps.Reached (step data m) data.length 0 q ∧ q < data.length ∧ (step data m q).1 = some f :=
  Steps.mem_scan _

/-- Where the scan comes to a terminated text of two bytes for a character, it finds it. -/
theorem utf16_string_eq (hlen : m ≤ text.length) (hmax : text.length ≤ max_text) (hne : text ≠ [])
    (hchars : ∀ k < text.length, utf16_at data (p + 2 * k) = text[k]?)
    (hzero : data[p + 2 * text.length]? = some 0) (hzero' : data[p + 2 * text.length + 1]? = some 0) :
    utf16_string data m p = some ⟨p, text, true⟩ := by
  have hlast : utf16_at data (p + 2 * text.length) = none := by
    by_contra hsome
    have hascii := (utf16_at_isSome (Option.isSome_iff_ne_none.mpr hsome)).1
    rw [ascii_at_zero hzero] at hascii
    cases hascii
  have hrun : run (utf16_at data) 2 max_text p = text := run_eq hmax hchars hlast
  have hfirst : (utf16_at data p).isSome := by
    have hpos := List.length_pos_iff.mpr hne
    have hchar := hchars 0 hpos
    rw [Nat.mul_zero, Nat.add_zero, List.getElem?_eq_getElem hpos] at hchar
    rw [hchar]
    rfl
  have hroom : (p + doubled m) % 2 ^ 64 ≤ data.length := by
    have hin := (List.getElem?_eq_some_iff.mp hzero).1
    rw [doubled_eq (Nat.le_trans hlen hmax)]
    exact Nat.le_trans (Nat.mod_le _ _) (by omega)
  rw [utf16_string, if_pos ⟨hroom, hfirst⟩, hrun]
  exact if_pos ⟨hlen, hzero, hzero'⟩

theorem step_some (h : (step data m q).1 = some f) : f.off = q ∧ (step data m q).2 = f.stop + f.width := by
  rcases step_cases data m q with ⟨g, hutf, hstep⟩ | ⟨-, g, hascii, hstep⟩ | ⟨-, -, hstep⟩
  · rw [hstep] at h ⊢
    obtain rfl := Option.some.inj h
    rw [off_utf16_string hutf]
    exact ⟨rfl, rfl⟩
  · rw [hstep] at h ⊢
    obtain rfl := Option.some.inj h
    rw [off_ascii_string hascii]
    exact ⟨rfl, rfl⟩
  · rw [hstep] at h
    cases h

/-- Strings are found in the order of their places, which do not overlap. -/
theorem all_strings_apart (data : List UInt8) (m : Nat) :
    (all_strings data m).Pairwise fun f g => f.stop + f.width ≤ g.off := by
  refine Steps.pairwise_scan _ (fun q q' f g hf hle hg => ?_) 0
  rw [(step_some hg).1, ← (step_some hf).2]
  exact hle

theorem char_first (h : MaximalRun char_at width p text) : (char_at p).isSome := by
  have hpos := List.length_pos_iff.mpr h.nonempty
  have hchar := h.chars 0 hpos
  rw [Nat.mul_zero, Nat.add_zero, List.getElem?_eq_getElem hpos] at hchar
  rw [hchar]
  rfl

theorem ascii_at_lt (h : (ascii_at data p).isSome) : p < data.length ∧ data[p]? ≠ some 0 := by
  constructor
  · by_contra hge
    rw [ascii_at, List.getElem?_eq_none (by omega)] at h
    cases h
  · intro hzero
    rw [ascii_at_zero hzero] at h
    cases h

/-- A terminated run of one byte for a character is found, or its start is in a string of the other kind. -/
theorem ascii_found (h : MaximalRun (ascii_at data) 1 p text) (hzero : data[p + text.length]? = some 0)
    (hlen : m ≤ text.length) (hmax : text.length ≤ max_text) (hmeaningful : ∃ c ∈ text, !whitespace c) :
    ⟨p, text, false⟩ ∈ all_strings data m ∨ ∃ g ∈ all_strings data m, g.utf16 ∧ g.off ≤ p ∧ p < g.stop := by
  obtain ⟨hp, hnot⟩ := ascii_at_lt (char_first h)
  rcases Steps.reached_or_passed (step_forward data m) hp with hreached | ⟨q, hreached, hlt, hpassed⟩
  · rcases step_cases data m p with ⟨g, hutf, hstep⟩ | ⟨-, g, hascii, hstep⟩ | ⟨-, hascii, -⟩
    · right
      obtain ⟨hg, hfirst, -⟩ := utf16_string_spec hutf
      refine ⟨g, mem_all_strings.mpr ⟨p, hreached, hp, by rw [hstep]⟩, by rw [hg], ?_, ?_⟩
      · exact Nat.le_of_eq (congrArg found_t.off hg)
      · have hpos : 0 < (run (utf16_at data) 2 max_text p).length := run_pos (by decide) hfirst
        rw [hg, found_t.stop, found_t.width, if_pos rfl]
        dsimp only
        omega
    · left
      have hrun := run_eq hmax h.chars h.last
      rw [off_ascii_string hascii, hrun] at hstep
      exact mem_all_strings.mpr ⟨p, hreached, hp, by rw [hstep]⟩
    · have hrun := run_eq hmax h.chars h.last
      rw [ascii_string, hrun, if_pos ⟨hzero, hlen⟩, if_pos (List.any_eq_true.mpr hmeaningful)] at hascii
      cases hascii
  · rcases passed_cases hlt hpassed with ⟨g, hg, hutf, hoff, hzero | ⟨hin, -⟩⟩ | ⟨q', hq', hsome⟩
    · exact absurd hzero hnot
    · exact .inr ⟨g, mem_all_strings.mpr ⟨q, hreached, by omega, hg⟩, hutf, by omega, hin⟩
    · rw [h.first q' hq'] at hsome
      cases hsome

/-- A terminated run of two bytes for a character is found if no character of one byte is before it. -/
theorem utf16_found (h : MaximalRun (utf16_at data) 2 p text) (hzero : data[p + 2 * text.length]? = some 0)
    (hzero' : data[p + 2 * text.length + 1]? = some 0) (hlen : m ≤ text.length) (hmax : text.length ≤ max_text)
    (hfree : ∀ q, p = q + 1 → ascii_at data q = none) : ⟨p, text, true⟩ ∈ all_strings data m := by
  obtain ⟨hp, hnot⟩ := ascii_at_lt (utf16_at_isSome (char_first h)).1
  rcases Steps.reached_or_passed (step_forward data m) hp with hreached | ⟨q, hreached, hlt, hpassed⟩
  · have hfound := utf16_string_eq hlen hmax h.nonempty h.chars hzero hzero'
    exact mem_all_strings.mpr ⟨p, hreached, hp, by rw [step, hfound]⟩
  · rcases passed_cases hlt hpassed with ⟨g, -, -, -, hzero | ⟨-, q', hq', hsome⟩⟩ | ⟨q', hq', hsome⟩
    · exact absurd hzero hnot
    · rw [h.first q' hq'] at hsome
      cases hsome
    · rw [hfree q' hq'] at hsome
      cases hsome

/-- Of a run whose first character ends a string of the other kind the rest is found. -/
theorem utf16_rest_found {c : UInt8} (h : MaximalRun (utf16_at data) 2 p (c :: text)) (hne : text ≠ [])
    (hzero : data[p + 2 * (c :: text).length]? = some 0) (hzero' : data[p + 2 * (c :: text).length + 1]? = some 0)
    (hlen : m ≤ text.length) (hmax : text.length ≤ max_text)
    (heaten : ∃ g ∈ all_strings data m, g.utf16 = false ∧ g.stop = p + 1) : ⟨p + 2, text, true⟩ ∈ all_strings data m := by
  obtain ⟨g, hg, hascii, hstop⟩ := heaten
  obtain ⟨q, hreached, hq, hstep⟩ := mem_all_strings.mp hg
  have hnext : (step data m q).2 = p + 2 := by
    rw [(step_some hstep).2, hstop, found_t.width, if_neg (by rw [hascii]; exact Bool.false_ne_true)]
  have hreached : Steps.Reached (step data m) data.length 0 (p + 2) := hnext ▸ hreached.step hq
  have hend : p + 2 * (c :: text).length = p + 2 + 2 * text.length := by
    rw [List.length_cons]
    omega
  rw [hend] at hzero hzero'
  have hfound : utf16_string data m (p + 2) = some ⟨p + 2, text, true⟩ := by
    refine utf16_string_eq hlen hmax hne (fun k hk => ?_) hzero hzero'
    have hchar := h.chars (k + 1) (Nat.succ_lt_succ hk)
    rw [show p + 2 * (k + 1) = p + 2 + 2 * k by omega] at hchar
    exact hchar
  have hin := (List.getElem?_eq_some_iff.mp hzero).1
  exact mem_all_strings.mpr ⟨p + 2, hreached, by omega, by rw [step, hfound]⟩

theorem extract_loop_eq (data : List UInt8) (va_base : UInt64) (m max_results i : Nat) (out : List string_hit_t)
    (scanned : Nat) :
    (extract_loop data va_base m max_results i out scanned).1 =
      out ++ ((Steps.scan (step data m) data.length (step_forward data m) i).take
        (max (max_results - out.length) 1)).map (found_t.hit va_base) := by
  induction i, out, scanned using extract_loop.induct data va_base m max_results with
  | case1 i out scanned hi f hf out' hfull =>
    have hroom : max (max_results - out.length) 1 = 1 := by
      rw [List.length_append, List.length_singleton] at hfull
      omega
    rw [extract_loop, dif_pos hi, Steps.scan, dif_pos hi, hf, hroom]
    dsimp only
    rw [if_pos hfull]
    rfl
  | case2 i out scanned hi f hf out' hroom ih =>
    have hlen : out'.length = out.length + 1 := by rw [List.length_append, List.length_singleton]
    have hleft : max (max_results - out.length) 1 = max (max_results - out'.length) 1 + 1 := by omega
    rw [extract_loop, dif_pos hi, Steps.scan, dif_pos hi, hf, hleft]
    dsimp only
    rw [if_neg hroom, ih, Option.toList_some, List.singleton_append, List.take_succ_cons, List.map_cons, List.append_assoc]
    rfl
  | case3 i out scanned hi hf ih =>
    rw [extract_loop, dif_pos hi, Steps.scan, dif_pos hi, hf]
    exact ih
  | case4 i out scanned hi =>
    rw [extract_loop, dif_neg hi, Steps.scan, dif_neg hi, List.take_nil, List.map_nil, List.append_nil]

end

/-- Without a limit on their number all terminated runs of up to 4096 characters are found, in places that do not overlap. -/
theorem extract_strings_complete (data : List UInt8) (va_base : UInt64) (min_chars max_results : Nat) :
    (extract_strings data va_base min_chars max_results).1 =
      ((all_strings data min_chars).take (max max_results 1)).map (found_t.hit va_base) ∧
    (∀ p text, MaximalRun (ascii_at data) 1 p text → data[p + text.length]? = some 0 →
      min_chars ≤ text.length → text.length ≤ max_text → (∃ c ∈ text, !whitespace c) →
      ⟨p, text, false⟩ ∈ all_strings data min_chars ∨
        ∃ g ∈ all_strings data min_chars, g.utf16 ∧ g.off ≤ p ∧ p < g.stop) ∧
    (∀ p text, MaximalRun (utf16_at data) 2 p text →
      data[p + 2 * text.length]? = some 0 → data[p + 2 * text.length + 1]? = some 0 →
      min_chars ≤ text.length → text.length ≤ max_text → (∀ q, p = q + 1 → ascii_at data q = none) →
      ⟨p, text, true⟩ ∈ all_strings data min_chars) ∧
    (∀ p c text, MaximalRun (utf16_at data) 2 p (c :: text) → text ≠ [] →
      data[p + 2 * (c :: text).length]? = some 0 → data[p + 2 * (c :: text).length + 1]? = some 0 →
      min_chars ≤ text.length → text.length ≤ max_text →
      (∃ g ∈ all_strings data min_chars, g.utf16 = false ∧ g.stop = p + 1) →
      ⟨p + 2, text, true⟩ ∈ all_strings data min_chars) ∧
    (all_strings data min_chars).Pairwise fun f g => f.stop + f.width ≤ g.off := by
  refine ⟨?_, ?_, ?_, ?_, all_strings_apart data min_chars⟩
  · rw [extract_strings, extract_loop_eq, List.nil_append, List.length_nil, Nat.sub_zero]
    rfl
  · intro p text h hzero hlen hmax hmeaningful
    exact ascii_found h hzero hlen hmax hmeaningful
  · intro p text h hzero hzero' hlen hmax hfree
    exact utf16_found h hzero hzero' hlen hmax hfree
  · intro p c text h hne hzero hzero' hlen hmax heaten
    exact utf16_rest_found h hne hzero hzero' hlen hmax heaten

/-- Text of two bytes for a character that has no terminator is not found. -/
theorem unterminated_not_found : ¬ ∀ (data : List UInt8) (min_chars p : Nat) (text : List UInt8),
    MaximalRun (utf16_at data) 2 p text → min_chars ≤ text.length →
      ⟨p, text, true⟩ ∈ all_strings data min_chars ∨
        ∃ g ∈ all_strings data min_chars, g.utf16 = false ∧ g.off ≤ p ∧ p < g.stop := by
  intro hlaw
  have hrun : MaximalRun (utf16_at [0x41, 0, 0x42, 0]) 2 0 [0x41, 0x42] :=
    ⟨List.cons_ne_nil _ _, by decide, fun q hq => by omega, rfl⟩
  have hfound := hlaw [0x41, 0, 0x42, 0] 2 0 [0x41, 0x42] hrun (by decide)
  have hstep : ∀ i < 4, step [0x41, 0, 0x42, 0] 2 i = (none, i + 1) := by decide +kernel
  have hnone : all_strings [0x41, 0, 0x42, 0] 2 = [] := by
    simp [all_strings, Steps.scan, hstep]
  rw [hnone] at hfound
  rcases hfound with hfound | ⟨g, hg, -⟩
  · cases hfound
  · cases hg

end slop.core.disasm.strings
