import ReverseSlop.Core.Disasm.BinaryState
import ReverseSlop.Library.Find
import ReverseSlop.Library.Numeral

namespace slop.core.analysis

open Find (FirstFrom)
open Numeral (ascii)
open disasm (pe_image_t pe_section_t)

/-- The content of a vector. -/
structure content_t where
  bytes : List UInt8
  small : bytes.length < 2 ^ 63

/-- `std::equal` of a needle and as many bytes from `i` on. All of them have to be in the
vector, also those behind the first one that differs; otherwise the comparison is a read
outside, which is `none`. -/
def equal_at (hay needle : List UInt8) (i : Nat) : Option Bool :=
  if i + needle.length ≤ hay.length then some (decide (needle <+: hay.drop i)) else none

/-- The loop over the places from `i` on. -/
def scan (test : Nat → Option Bool) : Nat → Nat → Option (Option Nat)
  | 0, _ => some none
  | count + 1, i => do if ← test i then return some i else scan test count (i + 1)

def find_bytes (hay needle : content_t) (first last : UInt64) : Option (Option Nat) :=
  let size := UInt64.ofNat hay.bytes.length
  let n := UInt64.ofNat needle.bytes.length
  if n = 0 ∨ size < n then some none
  else
    let stop := min last size - (n - 1)
    scan (equal_at hay.bytes needle.bytes) (stop.toNat + 1 - first.toNat) first.toNat

/-- A search answers with the first place in its region. -/
def Answers (hay needle : List UInt8) (first last : Nat) (o : Option Nat) : Prop :=
  ∀ i, o = some i ↔ needle ≠ [] ∧ FirstFrom (hay.take last) needle first i

/-- One place too many is tried: the needle is not in the region, and it stands at the place
behind the last one. Where the region ends with the file this place has no room for it, and
its first bytes count, those that are `looked` at before the comparison. -/
def Overruns (hay needle : List UInt8) (looked first last : Nat) : Prop :=
  first + needle.length ≤ last + 1 ∧ (∀ i, ¬ FirstFrom (hay.take last) needle first i) ∧
    (if last < hay.length then needle else needle.take looked) <+: hay.drop (last + 1 - needle.length)

/-- The search for a needle in a file goes wrong: it overruns, or its last place is below zero. -/
def Fails (hay needle : List UInt8) (first last : Nat) : Prop :=
  let stop := min last hay.length
  needle ≠ [] ∧ needle.length ≤ hay.length ∧
    (needle.length ≤ stop + 1 ∧ Overruns hay needle 0 first stop ∨
      stop + 1 < needle.length ∧ first + needle.length ≤ 2 ^ 64 + stop + 1)

structure const_sig_t where
  name : String
  bytes : List UInt8

def sig_table : List const_sig_t :=
  [⟨"AES S-box (forward)", [0x63, 0x7C, 0x77, 0x7B, 0xF2, 0x6B, 0x6F, 0xC5, 0x30, 0x01, 0x67, 0x2B, 0xFE, 0xD7, 0xAB, 0x76]⟩,
   ⟨"AES S-box (inverse)", [0x52, 0x09, 0x6A, 0xD5, 0x30, 0x36, 0xA5, 0x38, 0xBF, 0x40, 0xA3, 0x9E, 0x81, 0xF3, 0xD7, 0xFB]⟩,
   ⟨"SHA-256 K constants", [0x42, 0x8A, 0x2F, 0x98, 0x71, 0x37, 0x44, 0x91, 0xB5, 0xC0, 0xFB, 0xCF, 0xE9, 0xB5, 0xDB, 0xA5,
      0x39, 0x56, 0xC2, 0x5B, 0x59, 0xF1, 0x11, 0xF1, 0x92, 0x3F, 0x9A, 0x4A, 0xAB, 0x1C, 0x5E, 0xD5]⟩,
   ⟨"SHA-1 IV", [0x67, 0x45, 0x23, 0x01, 0xEF, 0xCD, 0xAB, 0x89, 0x98, 0xBA, 0xDC, 0xFE, 0x10, 0x32, 0x54, 0x76,
      0xC3, 0xD2, 0xE1, 0xF0]⟩,
   ⟨"MD5 IV", [0x01, 0x23, 0x45, 0x67, 0x89, 0xAB, 0xCD, 0xEF, 0xFE, 0xDC, 0xBA, 0x98, 0x76, 0x54, 0x32, 0x10]⟩,
   ⟨"CRC-32 table", [0x00, 0x00, 0x00, 0x00, 0x96, 0x30, 0x07, 0x77, 0x2C, 0x61, 0x0E, 0xEE, 0xBA, 0x51, 0x8D, 0x42]⟩,
   ⟨"Blowfish P-array", [0x24, 0x3F, 0x6A, 0x88, 0x85, 0xA3, 0x08, 0xD3, 0x13, 0x19, 0x8A, 0x2E, 0x03, 0x70, 0x73, 0x44]⟩,
   ⟨"Base64 alphabet", ascii "ABCDEFGHIJKLMNOPQRSTUVWX"⟩,
   ⟨"Base64url alphabet", ascii "ABCDEFGHIJKLMNOPQRSTUVWXYZabcdef-_"⟩,
   ⟨"gzip stream", [0x1F, 0x8B, 0x08]⟩,
   ⟨"zlib stream (default)", [0x78, 0x9C]⟩]

structure signature_hit_t where
  name : String
  va : UInt64 := 0
  offset : Nat
  in_overlay : Bool

def offset_to_va (pe : pe_image_t) (off : Nat) : Option UInt64 :=
  (pe.sections.find? fun s => !(off < s.raw_offset.toNat || off ≥ (s.raw_offset + s.raw_size).toNat)).map fun s =>
    pe.image_base + s.rva.toUInt64 + (UInt32.ofNat (off - s.raw_offset.toNat)).toUInt64

/-- The search for a signature in a region of the file. -/
structure search_t where
  sig : const_sig_t
  first : Nat
  last : Nat
  overlay : Bool

def search_t.hit (pe : pe_image_t) (x : search_t) (i : Nat) : signature_hit_t :=
  { name := x.sig.name, va := if x.overlay then 0 else (offset_to_va pe i).getD 0, offset := i, in_overlay := x.overlay }

/-- The hits, and the searches made so far, which the source does not keep. -/
structure hunt_t where
  hits : List signature_hit_t := []
  searches : List (search_t × Option Nat) := []

def hunt_t.record (pe : pe_image_t) (h : hunt_t) (x : search_t) (o : Option Nat) : hunt_t :=
  { hits := h.hits ++ (o.map (x.hit pe)).toList, searches := h.searches ++ [(x, o)] }

/-- The test of a place: the first byte on its own, then all of them. -/
def hunt_at (file needle : List UInt8) (i : Nat) : Option Bool := do
  let b ← file[i]?
  if needle[0]? ≠ some b then return false else equal_at file needle i

section

variable (pe : pe_image_t) (file : List UInt8) (limit : Nat)

def search_t.answer (x : search_t) : Option (Option Nat) :=
  let stop := min x.last file.length - (x.sig.bytes.length - 1)
  scan (hunt_at file x.sig.bytes) (stop + 1 - x.first) x.first

def scan_region (first last : Nat) (overlay : Bool) : List const_sig_t → hunt_t → Option hunt_t
  | [], h => some h
  | sig :: sigs, h =>
    if h.hits.length ≥ limit then some h
    else if last < sig.bytes.length ∨ file.length < sig.bytes.length then scan_region first last overlay sigs h
    else do
      let x : search_t := ⟨sig, first, last, overlay⟩
      let o ← x.answer file
      scan_region first last overlay sigs (h.record pe x o)

def end_of_raw : Nat := pe.sections.foldl (fun n s => max n (s.raw_offset.toNat + s.raw_size.toNat)) 0

def scan_sections : List pe_section_t → hunt_t → Option hunt_t
  | [], h =>
    if end_of_raw pe > 0 ∧ file.length > end_of_raw pe then
      scan_region pe file limit (end_of_raw pe) file.length true sig_table h
    else some h
  | sec :: secs, h =>
    let first := sec.raw_offset.toNat
    if sec.raw_size = 0 then scan_sections secs h
    else if first + sec.raw_size.toNat > file.length then scan_sections secs h
    else do
      let h ← scan_region pe file limit first (first + sec.raw_size.toNat) false sig_table h
      if h.hits.length ≥ limit then return h else scan_sections secs h

def hunt : Option hunt_t := if pe.ok = false ∨ file = [] then some {} else scan_sections pe file limit pe.sections {}

def crypto_hunt : Option (List signature_hit_t) := (hunt pe file limit).map hunt_t.hits

end

section

variable {hay needle : List UInt8} {test : Nat → Option Bool} {first last count i j n : Nat}

theorem equal_at_inside (hin : i + needle.length ≤ hay.length) : equal_at hay needle i = some (decide (needle <+: hay.drop i)) :=
  if_pos hin

theorem equal_at_outside (hout : hay.length < i + needle.length) : equal_at hay needle i = none := if_neg (by omega)

/-- What a test of places answers: whether the needle stands there, and at the place that is
one byte short it reads outside if the first bytes are the needle's. -/
structure Tests (hay needle : List UInt8) (looked : Nat) (test : Nat → Option Bool) : Prop where
  inside : ∀ i, i + needle.length ≤ hay.length → test i = some (decide (needle <+: hay.drop i))
  short : ∀ i, i + needle.length = hay.length + 1 → test i = if needle.take looked <+: hay.drop i then none else some false

private theorem tests_equal_at : Tests hay needle 0 (equal_at hay needle) := by
  refine ⟨fun i hin => equal_at_inside hin, fun i hshort => ?_⟩
  rw [equal_at_outside (by omega), List.take_zero, if_pos List.nil_prefix]

private theorem scan_add (m : Nat) :
    scan test (count + m) i = (scan test count i).bind fun o => if o.isSome then some o else scan test m (i + count) := by
  induction count generalizing i with
  | zero => rw [Nat.zero_add, scan]; rfl
  | succ count ih =>
    rw [show count + 1 + m = (count + m) + 1 by omega, scan, scan]
    cases test i with
    | none => rfl
    | some b =>
      cases b with
      | true => rfl
      | false =>
        simp only [Option.bind_eq_bind, Option.bind_some, Bool.false_eq_true, if_false]
        rw [ih, show i + 1 + count = i + (count + 1) by omega]

/-- Inside the region the search is that of the library. -/
theorem Tests.scan_inside {looked : Nat} (htests : Tests hay needle looked test) (hlast : last ≤ hay.length)
    (hin : ∀ j, i ≤ j → j < i + count → j + needle.length ≤ last) :
    scan test count i = some ((List.range' i count).find? fun j => decide (needle <+: (hay.take last).drop j)) := by
  induction count generalizing i with
  | zero => rfl
  | succ count ih =>
    have hroom := hin i le_rfl (by omega)
    have hplace : needle <+: (hay.take last).drop i ↔ needle <+: hay.drop i := by
      rw [← Find.place_append (t := hay.drop last) (by rw [List.length_take]; omega), List.take_append_drop]
    rw [scan, htests.inside i (by omega), List.range'_succ, List.find?_cons, ih fun j hj hlt => hin j (by omega) (by omega)]
    by_cases hhit : needle <+: hay.drop i
    · rw [decide_eq_true hhit, decide_eq_true (hplace.mpr hhit)]
      rfl
    · rw [decide_eq_false hhit, decide_eq_false (mt hplace.mp hhit)]
      rfl

private theorem Answers.eq {o : Option Nat} (hneedle : needle ≠ []) (ho : Answers hay needle first last o) :
    o = Find.find (hay.take last) needle first := by
  refine Option.ext fun i => ?_
  rw [ho i, Find.find_eq_some hneedle, and_iff_right hneedle]

private theorem answers_find (hneedle : needle ≠ []) : Answers hay needle first last (Find.find (hay.take last) needle first) := by
  intro i
  rw [Find.find_eq_some hneedle, and_iff_right hneedle]

/-- The search up to the place one behind the last answers right exactly when this place does not count. -/
theorem Tests.scan_iff {looked : Nat} (htests : Tests hay needle looked test) (hneedle : needle ≠ []) (hlast : last ≤ hay.length)
    (hn : needle.length ≤ last + 1) :
    (∃ o, scan test (last + 1 - needle.length + 1 - first) first = some o ∧ Answers hay needle first last o) ↔
      ¬ Overruns hay needle looked first last := by
  have hpos := List.length_pos_iff.mpr hneedle
  have hlen : (hay.take last).length = last := by
    rw [List.length_take]
    omega
  rcases Nat.lt_or_ge (last + 1) (first + needle.length) with hshort | hroom
  · -- nothing is tried
    rw [show last + 1 - needle.length + 1 - first = 0 by omega, scan]
    refine iff_of_true ⟨none, rfl, fun i => iff_of_false nofun ?_⟩ fun h => by have := h.1; omega
    rintro ⟨-, hfirst, hplace, -⟩
    have hin := Find.place_in hneedle hplace
    omega
  · obtain ⟨count, hcount⟩ : ∃ count, last + 1 - needle.length = first + count := ⟨last + 1 - needle.length - first, by omega⟩
    have hin : ∀ j, first ≤ j → j < first + count → j + needle.length ≤ last := fun j hj hlt => by omega
    have hinside := htests.scan_inside hlast hin
    have hfind : (List.range' first count).find? (fun j => decide (needle <+: (hay.take last).drop j)) =
        Find.find (hay.take last) needle first := by
      rw [Find.find, hlen, show last + 1 - needle.length - first = count by omega]
    rw [hfind] at hinside
    rw [show last + 1 - needle.length + 1 - first = count + 1 by omega, scan_add, hinside, Option.bind_some]
    cases hfound : Find.find (hay.take last) needle first with
    | some k =>
      refine iff_of_true ⟨some k, rfl, hfound ▸ answers_find hneedle⟩ fun h => h.2.1 k ?_
      exact (Find.find_eq_some hneedle).mp hfound
    | none =>
      have hnone : ∀ i, ¬ FirstFrom (hay.take last) needle first i := by
        intro i hi
        rw [(Find.find_eq_some hneedle).mpr hi] at hfound
        cases hfound
      rw [if_neg (by simp), Overruns, and_iff_right hroom, and_iff_right hnone, hcount, scan, scan]
      by_cases hmore : last < hay.length
      · -- the place behind the last one is in the file
        rw [htests.inside _ (by omega), if_pos hmore]
        by_cases hhit : needle <+: hay.drop (first + count)
        · rw [decide_eq_true hhit]
          refine iff_of_false ?_ (not_not.mpr hhit)
          rintro ⟨o, ho, hright⟩
          cases ho
          exact hnone _ ((hright _).mp rfl).2
        · rw [decide_eq_false hhit]
          exact iff_of_true ⟨none, rfl, fun i => iff_of_false nofun fun h => hnone i h.2⟩ hhit
      · -- it is one byte short
        rw [htests.short _ (by omega), if_neg hmore]
        by_cases hlooked : needle.take looked <+: hay.drop (first + count)
        · rw [if_pos hlooked]
          refine iff_of_false ?_ (not_not.mpr hlooked)
          rintro ⟨o, ho, -⟩
          cases ho
        · rw [if_neg hlooked]
          exact iff_of_true ⟨none, rfl, fun i => iff_of_false nofun fun h => hnone i h.2⟩ hlooked

/-- A search that ends without a hit has compared at each of its places. -/
theorem scan_none (hnone : scan test count i = some none) (hge : i ≤ j) (hlt : j < i + count) : test j = some false := by
  induction count generalizing i with
  | zero => omega
  | succ count ih =>
    rw [scan] at hnone
    cases htest : test i with
    | none =>
      rw [htest] at hnone
      cases hnone
    | some b =>
      rw [htest] at hnone
      cases b with
      | true => cases hnone
      | false =>
        rcases Nat.lt_or_eq_of_le hge with hlt' | rfl
        · exact ih hnone hlt' (by omega)
        · exact htest

end

theorem content_t.length_toNat (c : content_t) : (UInt64.ofNat c.bytes.length).toNat = c.bytes.length := by
  have hsmall := c.small
  rw [UInt64.toNat_ofNat']
  omega

private theorem toNat_min (a b : UInt64) : (min a b).toNat = min a.toNat b.toNat := by
  rw [UInt64.min_def]
  split
  · rename_i hle
    exact (Nat.min_eq_left (UInt64.le_iff_toNat_le.mp hle)).symm
  · rename_i hlt
    exact (Nat.min_eq_right (Nat.le_of_lt (UInt64.lt_iff_toNat_lt.mp (UInt64.not_le.mp hlt)))).symm

/-- A needle longer than the region is not in it. -/
theorem not_firstFrom {hay needle : List UInt8} {first last i : Nat} (hneedle : needle ≠ [])
    (hshort : min last hay.length < needle.length) : ¬ FirstFrom (hay.take last) needle first i := by
  rintro ⟨-, hplace, -⟩
  have hin := Find.place_in hneedle hplace
  rw [List.length_take] at hin
  omega

theorem find_bytes_iff (hay needle : content_t) (first last : UInt64) :
    (∃ o, find_bytes hay needle first last = some o ∧ Answers hay.bytes needle.bytes first.toNat last.toNat o) ↔
      ¬ Fails hay.bytes needle.bytes first.toNat last.toNat := by
  have hhay := hay.length_toNat
  have hlength := needle.length_toNat
  have hsmall := hay.small
  have hlarge := first.toNat_lt
  have hmin := toNat_min last (UInt64.ofNat hay.bytes.length)
  have hregion : ∀ o, Answers hay.bytes needle.bytes first.toNat last.toNat o ↔
      Answers hay.bytes needle.bytes first.toNat (min last.toNat hay.bytes.length) o := by
    intro o
    rw [Answers, Answers, List.take_eq_take_iff.mpr (show min last.toNat hay.bytes.length =
      min (min last.toNat hay.bytes.length) hay.bytes.length by omega)]
  have hzero : UInt64.ofNat needle.bytes.length = 0 ↔ needle.bytes = [] := by
    rw [← UInt64.toNat_inj, hlength]
    exact List.length_eq_zero_iff
  rw [find_bytes, Fails]
  dsimp only
  by_cases hempty : needle.bytes = []
  · rw [if_pos (.inl (hzero.mpr hempty))]
    exact iff_of_true ⟨none, rfl, fun i => iff_of_false nofun fun h => h.1 hempty⟩ fun h => h.1 hempty
  by_cases hlong : hay.bytes.length < needle.bytes.length
  · rw [if_pos (.inr (UInt64.lt_iff_toNat_lt.mpr (by omega)))]
    refine iff_of_true ⟨none, rfl, fun i => iff_of_false nofun fun h => ?_⟩ fun h => absurd h.2.1 (by omega)
    exact not_firstFrom hempty (by omega) h.2
  have hpos := List.length_pos_iff.mpr hempty
  have hone : (UInt64.ofNat needle.bytes.length - 1).toNat = needle.bytes.length - 1 := by
    rw [UInt64.toNat_sub_of_le _ _ (UInt64.le_iff_toNat_le.mpr (by rw [hlength]; exact hpos)), hlength]
    rfl
  rw [if_neg (by rw [hzero, UInt64.lt_iff_toNat_lt, hlength, hhay]; tauto), and_iff_right hempty, and_iff_right (by omega)]
  rw [hhay] at hmin
  rcases Nat.lt_or_ge (min last.toNat hay.bytes.length + 1) needle.bytes.length with hwrap | hfits
  · -- the last place is below zero
    have hstop : (min last (UInt64.ofNat hay.bytes.length) - (UInt64.ofNat needle.bytes.length - 1)).toNat + needle.bytes.length =
        2 ^ 64 + min last.toNat hay.bytes.length + 1 := by
      rw [UInt64.toNat_sub, hone, hmin]
      omega
    rw [or_iff_right (by omega), and_iff_right hwrap]
    by_cases hall : first.toNat + needle.bytes.length ≤ 2 ^ 64 + min last.toNat hay.bytes.length + 1
    · refine iff_of_false ?_ (not_not.mpr hall)
      rintro ⟨o, ho, hright⟩
      cases o with
      | some i => exact not_firstFrom hempty (by omega) ((hright i).mp rfl).2
      | none =>
        have htest := scan_none ho (le_max_left first.toNat hay.bytes.length) (by omega)
        rw [equal_at_outside (by omega)] at htest
        cases htest
    · have hnothing : (min last (UInt64.ofNat hay.bytes.length) - (UInt64.ofNat needle.bytes.length - 1)).toNat + 1 -
          first.toNat = 0 := by omega
      rw [hnothing, scan]
      exact iff_of_true ⟨none, rfl, fun i => iff_of_false nofun fun h => not_firstFrom hempty (by omega) h.2⟩ hall
  · have hstop : (min last (UInt64.ofNat hay.bytes.length) - (UInt64.ofNat needle.bytes.length - 1)).toNat =
        min last.toNat hay.bytes.length + 1 - needle.bytes.length := by
      rw [UInt64.toNat_sub_of_le _ _ (UInt64.le_iff_toNat_le.mpr (by omega)), hone, hmin]
      omega
    rw [or_iff_left (by omega), and_iff_right hfits, hstop]
    simp only [hregion]
    exact tests_equal_at.scan_iff hempty (Nat.min_le_right _ _) hfits

/-- The searches of a region. -/
def region_searches (file : List UInt8) (first last : Nat) (overlay : Bool) (sigs : List const_sig_t) : List search_t :=
  (sigs.filter fun sig => sig.bytes.length ≤ last ∧ sig.bytes.length ≤ file.length).map fun sig => ⟨sig, first, last, overlay⟩

/-- The searches of a section that is in the file. -/
def section_searches (file : List UInt8) (sec : pe_section_t) : List search_t :=
  let first := sec.raw_offset.toNat
  if sec.raw_size ≠ 0 ∧ first + sec.raw_size.toNat ≤ file.length then
    region_searches file first (first + sec.raw_size.toNat) false sig_table
  else []

/-- All searches of a hunt, in their order. -/
def plan (pe : pe_image_t) (file : List UInt8) : List search_t :=
  if pe.ok = false ∨ file = [] then []
  else pe.sections.flatMap (section_searches file) ++
    if end_of_raw pe > 0 ∧ file.length > end_of_raw pe then region_searches file (end_of_raw pe) file.length true sig_table else []

/-- The searches one after the other, until there are enough hits. -/
def run (pe : pe_image_t) (file : List UInt8) (limit : Nat) : List search_t → hunt_t → Option hunt_t
  | [], h => some h
  | x :: xs, h => if h.hits.length ≥ limit then some h else do run pe file limit xs (h.record pe x (← x.answer file))

section

variable {pe : pe_image_t} {file : List UInt8} {limit first last : Nat} {overlay : Bool} {xs ys : List search_t} {h h' : hunt_t}
  {sigs : List const_sig_t} {x : search_t}

private theorem run_full (hfull : h.hits.length ≥ limit) : run pe file limit xs h = some h := by
  cases xs with
  | nil => rfl
  | cons x xs => rw [run, if_pos hfull]

private theorem run_append : run pe file limit (xs ++ ys) h = (run pe file limit xs h).bind (run pe file limit ys) := by
  induction xs generalizing h with
  | nil => rfl
  | cons x xs ih =>
    rw [List.cons_append, run, run]
    split
    · rename_i hfull
      rw [Option.bind_some, run_full hfull]
    · cases x.answer file with
      | none => rfl
      | some o => exact ih

/-- The needle of a search has two bytes or more, and its region is in the file and not shorter. -/
def search_t.Proper (file : List UInt8) (x : search_t) : Prop :=
  2 ≤ x.sig.bytes.length ∧ x.sig.bytes.length ≤ x.last ∧ x.last ≤ file.length

/-- A search of a hunt looks at the first byte before it compares. -/
def search_t.Overruns (file : List UInt8) (x : search_t) : Prop := analysis.Overruns file x.sig.bytes 1 x.first x.last

end

/-- The hits are those of the searches. -/
def hunt_t.Reports (pe : pe_image_t) (h : hunt_t) : Prop := h.hits = h.searches.filterMap fun y => y.2.map (y.1.hit pe)

section

variable {pe : pe_image_t} {file : List UInt8} {limit : Nat} {xs : List search_t} {h h' : hunt_t}

end

end slop.core.analysis
