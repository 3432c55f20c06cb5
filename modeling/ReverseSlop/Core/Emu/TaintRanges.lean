import ReverseSlop.Core.Emu.Taint
import ReverseSlop.Library.Sorted
import ReverseSlop.Library.Spans

namespace slop.core.emu

def kPageBits : Nat := 4096

structure taint_range_t where
  addr : Nat
  len : Nat

/-- `pages_`: the bitmaps of the pages that have tainted bytes. -/
abbrev page_map_t := List (Nat × BitVec kPageBits)

/-- `pages_[..]` gives a page that is new an empty bitmap. -/
def mark_byte (pages : page_map_t) (a : UInt64) : page_map_t :=
  let page := a.toNat / kPageBits
  let bm := (SortedMap.find page pages).getD 0
  let bit := a.toNat % kPageBits
  SortedMap.set page (bm ||| BitVec.twoPow kPageBits bit) pages

def page_map_t.mark_memory (pages : page_map_t) (addr : UInt64) (len : Nat) : page_map_t :=
  (List.range len).foldl (fun pages i => mark_byte pages (addr + i.toUInt64)) pages

/-- A byte is tainted. -/
def page_map_t.tainted (pages : page_map_t) (a : Nat) : Bool :=
  (SortedMap.find (a / kPageBits) pages).any fun bm => bm.getLsbD (a % kPageBits)

structure range_scan_t where
  out : List taint_range_t := []
  run_start : Nat := 0
  in_run : Bool := false

/-- One bit; the flag is the early return. -/
def scan_bit (max_ranges : Nat) (s : range_scan_t) (addr : Nat) (t : Bool) : range_scan_t × Bool :=
  if t && !s.in_run then ({ s with run_start := addr, in_run := true }, false)
  else if !t && s.in_run then
    if s.out.length ≥ max_ranges then (s, true)
    else ({ s with out := s.out ++ [⟨s.run_start, addr - s.run_start⟩], in_run := false }, false)
  else (s, false)

def scan_bits (max_ranges : Nat) (s : range_scan_t) : List (Nat × Bool) → range_scan_t × Bool
  | [] => (s, false)
  | (addr, t) :: bits =>
    match scan_bit max_ranges s addr t with
    | (s, true) => (s, true)
    | (s, false) => scan_bits max_ranges s bits

/-- The bits of the pages, in the order of the loops. -/
def page_bits (pages : page_map_t) : List (Nat × Bool) :=
  pages.flatMap fun page => (List.range kPageBits).map fun bit => (page.1 * kPageBits + bit, page.2.getLsbD bit)

def tainted_ranges (pages : page_map_t) (max_ranges : Nat) : List taint_range_t :=
  match scan_bits max_ranges {} (page_bits pages) with
  | (s, true) => s.out
  | (s, false) => if s.in_run && s.out.length < max_ranges then s.out ++ [⟨s.run_start, kPageBits⟩] else s.out

def taint_range_t.span (r : taint_range_t) : Nat × Nat := (r.addr, r.addr + r.len)

/-- The ranges are the maximal intervals of the tainted bytes. -/
def IsReport (pages : page_map_t) (ranges : List taint_range_t) : Prop :=
  Spans.Maximal (fun a => pages.tainted a = true) (ranges.map taint_range_t.span)

/-- Every page is there for some byte, within the address space. -/
structure page_map_t.Valid (pages : page_map_t) : Prop where
  sorted : SortedMap.Sorted pages
  filled : ∀ page ∈ pages, ∃ bit < kPageBits, page.2.getLsbD bit = true

/-- A page whose last byte is tainted has a page behind it, or it is the last one and all of it is one interval. -/
def ClosedPages (pages : page_map_t) : Prop :=
  ∀ page, pages.tainted (page * kPageBits + (kPageBits - 1)) = true →
    (∃ bit < kPageBits, pages.tainted ((page + 1) * kPageBits + bit) = true) ∨
      (∀ a, pages.tainted a = true → a < (page + 1) * kPageBits) ∧
        (∀ bit < kPageBits, pages.tainted (page * kPageBits + bit) = true) ∧
        ∀ b, page * kPageBits = b + 1 → pages.tainted b = false

section

variable {pages : page_map_t} {max_ranges : Nat} {s : range_scan_t} {bits : List (Nat × Bool)}

private theorem valid_nil : page_map_t.Valid [] := ⟨.nil, fun _ hpage => absurd hpage List.not_mem_nil⟩

private theorem valid_mark_byte (h : pages.Valid) (a : UInt64) : (mark_byte pages a).Valid := by
  refine ⟨h.sorted.set _ _, fun page hpage => ?_⟩
  rw [mark_byte, SortedMap.mem_set h.sorted] at hpage
  rcases hpage with rfl | ⟨hpage, -⟩
  · have hbit : a.toNat % kPageBits < kPageBits := Nat.mod_lt _ (by decide)
    refine ⟨a.toNat % kPageBits, hbit, ?_⟩
    rw [BitVec.getLsbD_or, BitVec.getLsbD_twoPow]
    simp [hbit]
  · exact h.filled page hpage

private theorem tainted_mark_byte (h : pages.Valid) (a : UInt64) (b : Nat) :
    (mark_byte pages a).tainted b = (pages.tainted b || b == a.toNat) := by
  have hbit : a.toNat % kPageBits < kPageBits := Nat.mod_lt _ (by decide)
  rw [page_map_t.tainted, page_map_t.tainted, mark_byte]
  by_cases hpage : b / kPageBits = a.toNat / kPageBits
  · rw [hpage, SortedMap.find_set h.sorted, Option.any_some, BitVec.getLsbD_or, BitVec.getLsbD_twoPow]
    have hsame : (b == a.toNat) = decide (a.toNat % kPageBits = b % kPageBits) := by
      rw [beq_eq_decide]
      refine decide_eq_decide.mpr ⟨fun hb => by rw [hb], fun hmod => ?_⟩
      have hb := Nat.div_add_mod b kPageBits
      have ha := Nat.div_add_mod a.toNat kPageBits
      rw [hpage, ← hmod] at hb
      omega
    rw [hsame, decide_eq_true hbit, Bool.true_and]
    cases SortedMap.find (a.toNat / kPageBits) pages with
    | none => simp
    | some bm => rfl
  · have hne : (b == a.toNat) = false := beq_false_of_ne fun hb => hpage (by rw [hb])
    rw [SortedMap.find_set_ne h.sorted hpage, hne, Bool.or_false]

private theorem mark_memory_spec (h : pages.Valid) (addr : UInt64) (len : Nat) : (pages.mark_memory addr len).Valid ∧
    ∀ b, (pages.mark_memory addr len).tainted b = true ↔
      pages.tainted b = true ∨ ∃ i < len, b = (addr + i.toUInt64).toNat := by
  rw [page_map_t.mark_memory]
  induction len with
  | zero => exact ⟨h, fun b => by simp⟩
  | succ len ih =>
    obtain ⟨hvalid, htainted⟩ := ih
    rw [List.range_succ, List.foldl_append, List.foldl_cons, List.foldl_nil]
    refine ⟨valid_mark_byte hvalid _, fun b => ?_⟩
    rw [tainted_mark_byte hvalid, Bool.or_eq_true, htainted, beq_iff_eq, or_assoc]
    refine or_congr_right ⟨?_, ?_⟩
    · rintro (⟨i, hi, hb⟩ | hb)
      · exact ⟨i, by omega, hb⟩
      · exact ⟨len, by omega, hb⟩
    · rintro ⟨i, hi, hb⟩
      by_cases hlast : i = len
      · exact .inr (hlast ▸ hb)
      · exact .inl ⟨i, by omega, hb⟩

/-- The pages hold the tainted bytes of a tracker. -/
def Refines (pages : page_map_t) (t : taint_tracker_t) : Prop := ∀ a : UInt64, pages.tainted a.toNat = t.pages_ a

private theorem in_range_iff {addr a : UInt64} {len : Nat} : in_range addr len a = true ↔ ∃ i < len, a = addr + i.toUInt64 := by
  rw [in_range, decide_eq_true_eq]
  constructor
  · intro hlt
    refine ⟨_, hlt, ?_⟩
    rw [Nat.toUInt64_eq, UInt64.ofNat_toNat, UInt64.add_comm, UInt64.sub_add_cancel]
  · rintro ⟨i, hi, rfl⟩
    rw [UInt64.add_comm, UInt64.add_sub_cancel]
    exact Nat.lt_of_le_of_lt (Nat.mod_le _ _) hi

private theorem Refines.mark_memory {t : taint_tracker_t} (hrefines : Refines pages t) (h : pages.Valid) (addr : UInt64) (len : Nat) :
    Refines (pages.mark_memory addr len) (t.mark_memory addr len) := by
  intro a
  rw [Bool.eq_iff_iff, (mark_memory_spec h addr len).2, hrefines a]
  change _ ↔ (t.pages_ a || in_range addr len a) = true
  rw [Bool.or_eq_true, in_range_iff]
  simp only [UInt64.toNat_inj]

private theorem mem_page_bits (h : SortedMap.Sorted pages) {e : Nat × Bool} :
    e ∈ page_bits pages ↔ (SortedMap.find (e.1 / kPageBits) pages).isSome = true ∧ e.2 = pages.tainted e.1 := by
  have hpos : 0 < kPageBits := by decide
  rw [page_bits, List.mem_flatMap]
  constructor
  · rintro ⟨page, hpage, he⟩
    obtain ⟨bit, hbit, rfl⟩ := List.mem_map.mp he
    have hbit := List.mem_range.mp hbit
    have hdiv : (page.1 * kPageBits + bit) / kPageBits = page.1 := by
      rw [Nat.mul_comm, Nat.mul_add_div hpos, Nat.div_eq_of_lt hbit, Nat.add_zero]
    have hmod : (page.1 * kPageBits + bit) % kPageBits = bit := by
      rw [Nat.mul_comm, Nat.mul_add_mod, Nat.mod_eq_of_lt hbit]
    have hfind : SortedMap.find page.1 pages = some page.2 := (SortedMap.find_eq_some h).mpr hpage
    rw [page_map_t.tainted, hdiv, hmod, hfind]
    exact ⟨rfl, rfl⟩
  · rintro ⟨hsome, ht⟩
    obtain ⟨bm, hfind⟩ := Option.isSome_iff_exists.mp hsome
    refine ⟨(e.1 / kPageBits, bm), (SortedMap.find_eq_some h).mp hfind, List.mem_map.mpr ⟨e.1 % kPageBits, ?_, ?_⟩⟩
    · exact List.mem_range.mpr (Nat.mod_lt _ hpos)
    · rw [page_map_t.tainted, hfind, Option.any_some] at ht
      rw [Nat.div_add_mod', ← ht]

/-- The loops go up. -/
theorem page_bits_sorted (h : SortedMap.Sorted pages) : (page_bits pages).Pairwise fun e e' => e.1 < e'.1 := by
  refine List.pairwise_flatMap.mpr ⟨fun page _ => ?_, h.imp fun {page page'} hlt e he e' he' => ?_⟩
  · refine List.pairwise_map.mpr (List.pairwise_lt_range.imp fun {bit bit'} hlt => ?_)
    exact Nat.add_lt_add_left hlt _
  · obtain ⟨bit, hbit, rfl⟩ := List.mem_map.mp he
    obtain ⟨bit', -, rfl⟩ := List.mem_map.mp he'
    have hbit := List.mem_range.mp hbit
    have hpages : page.1 + 1 ≤ page'.1 := Nat.compare_eq_lt.mp hlt
    have hmul := Nat.mul_le_mul_right kPageBits hpages
    rw [Nat.add_mul, Nat.one_mul] at hmul
    dsimp only
    omega

/-- The interval that is open in the loop. -/
def range_scan_t.run (s : range_scan_t) : Option Nat := if s.in_run then some s.run_start else none

def span_range (x : Nat × Nat) : taint_range_t := ⟨x.1, x.2 - x.1⟩

/-- The loop closes the intervals of its bits, up to the limit. -/
theorem scan_bits_spec (hroom : s.out.length ≤ max_ranges) (bits : List (Nat × Bool)) :
    (scan_bits max_ranges s bits).1.out = (s.out ++ (Spans.closed s.run bits).map span_range).take max_ranges ∧
      ((scan_bits max_ranges s bits).2 = true →
        max_ranges ≤ (s.out ++ (Spans.closed s.run bits).map span_range).length) ∧
      ((scan_bits max_ranges s bits).2 = false →
        (s.out ++ (Spans.closed s.run bits).map span_range).length ≤ max_ranges ∧
          (scan_bits max_ranges s bits).1.run = Spans.last s.run bits) := by
  induction bits generalizing s with
  | nil =>
    rw [scan_bits, Spans.closed, Spans.last, List.map_nil, List.append_nil]
    exact ⟨(List.take_of_length_le hroom).symm, fun h => absurd h Bool.false_ne_true, fun _ => ⟨hroom, rfl⟩⟩
  | cons e bits ih =>
    obtain ⟨addr, t⟩ := e
    obtain ⟨out, run_start, in_run⟩ := s
    cases t with
    | true =>
      cases in_run with
      | false => exact ih (s := ⟨out, addr, true⟩) hroom
      | true => exact ih (s := ⟨out, run_start, true⟩) hroom
    | false =>
      cases in_run with
      | false => exact ih (s := ⟨out, run_start, false⟩) hroom
      | true =>
        change out.length ≤ max_ranges at hroom
        have hclosed : Spans.closed (range_scan_t.run ⟨out, run_start, true⟩) ((addr, false) :: bits) =
            (run_start, addr) :: Spans.closed none bits := rfl
        have hlast : Spans.last (range_scan_t.run ⟨out, run_start, true⟩) ((addr, false) :: bits) = Spans.last none bits := rfl
        rw [hclosed, hlast, List.map_cons]
        by_cases hfull : out.length ≥ max_ranges
        · have hscan : scan_bits max_ranges ⟨out, run_start, true⟩ ((addr, false) :: bits) = (⟨out, run_start, true⟩, true) := by
            rw [scan_bits, scan_bit]
            simp [hfull]
          rw [hscan]
          refine ⟨?_, fun _ => ?_, fun h => absurd h.symm Bool.false_ne_true⟩
          · rw [List.take_append_of_le_length hfull, List.take_of_length_le hroom]
          · rw [List.length_append]
            exact Nat.le_trans hfull (Nat.le_add_right _ _)
        · have hscan : scan_bits max_ranges ⟨out, run_start, true⟩ ((addr, false) :: bits) =
              scan_bits max_ranges ⟨out ++ [span_range (run_start, addr)], run_start, false⟩ bits := by
            rw [scan_bits, scan_bit]
            simp [hfull, span_range]
          have hrest := ih (s := ⟨out ++ [span_range (run_start, addr)], run_start, false⟩) (by
            rw [List.length_append, List.length_singleton]
            omega)
          rw [hscan]
          rw [List.append_assoc, List.singleton_append] at hrest
          exact hrest

/-- All intervals that the loops see; the last one is given a whole page. -/
def all_spans (pages : page_map_t) : List (Nat × Nat) :=
  Spans.closed none (page_bits pages) ++ (Spans.last none (page_bits pages)).toList.map fun s => (s, s + kPageBits)

private theorem tainted_ranges_eq (pages : page_map_t) (max_ranges : Nat) :
    tainted_ranges pages max_ranges = ((all_spans pages).take max_ranges).map span_range := by
  obtain ⟨hout, hfull, hopen⟩ := scan_bits_spec (s := {}) (Nat.zero_le max_ranges) (page_bits pages)
  rw [List.nil_append, show ({} : range_scan_t).run = none from rfl] at hout hfull hopen
  rw [tainted_ranges, all_spans]
  generalize scan_bits max_ranges {} (page_bits pages) = scanned at hout hfull hopen ⊢
  generalize Spans.closed none (page_bits pages) = spans at hout hfull hopen ⊢
  obtain ⟨⟨out, run_start, in_run⟩, flag⟩ := scanned
  cases flag with
  | true =>
    have hlen := hfull rfl
    rw [List.length_map] at hlen
    rw [List.take_append_of_le_length hlen, List.map_take]
    exact hout
  | false =>
    obtain ⟨hlen, hrun⟩ := hopen rfl
    rw [List.take_of_length_le hlen] at hout
    rw [List.length_map] at hlen
    obtain rfl : out = spans.map span_range := hout
    rw [← hrun]
    cases in_run with
    | false =>
      change spans.map span_range = ((spans ++ []).take max_ranges).map span_range
      rw [List.append_nil, List.take_of_length_le hlen]
    | true =>
      change (if (true && decide ((spans.map span_range).length < max_ranges)) = true then _ else _) =
        ((spans ++ [(run_start, run_start + kPageBits)]).take max_ranges).map span_range
      rw [List.length_map]
      split
      · rename_i hlt
        have hlt := of_decide_eq_true hlt
        rw [List.take_of_length_le, List.map_append, List.map_singleton, span_range, Nat.add_sub_cancel_left]
        rw [List.length_append, List.length_singleton]
        omega
      · rename_i hnot
        have hge : ¬ spans.length < max_ranges := fun hlt => hnot (decide_eq_true hlt)
        rw [List.take_append_of_le_length (by omega), List.take_of_length_le hlen]

/-- What the loops leave of the pages. -/
theorem page_spans (h : pages.Valid) :
    Spans.Scanned none (page_bits pages) (Spans.closed none (page_bits pages)) (Spans.last none (page_bits pages)) :=
  Spans.scanned (page_bits_sorted h.sorted) fun s hs => by cases hs

private theorem all_spans_separated (h : pages.Valid) : (all_spans pages).Pairwise fun x y => x.2 < y.1 := by
  have hspans := page_spans h
  rw [all_spans]
  cases hlast : Spans.last none (page_bits pages) with
  | none => exact (List.append_nil _).symm ▸ hspans.separated
  | some s =>
    refine List.pairwise_append.mpr ⟨hspans.separated, List.pairwise_singleton _ _, fun x hx y hy => ?_⟩
    rw [List.mem_singleton.mp hy]
    exact (hspans.behind s hlast).1 x hx

private theorem mem_all_spans {x : Nat × Nat} : x ∈ all_spans pages ↔
    x ∈ Spans.closed none (page_bits pages) ∨ ∃ s, Spans.last none (page_bits pages) = some s ∧ x = (s, s + kPageBits) := by
  rw [all_spans, List.mem_append, List.mem_map]
  simp only [Option.mem_toList, eq_comm (b := x)]

/-- A page is in the map if and only if it has a tainted byte. -/
theorem isSome_find_iff (h : pages.Valid) (page : Nat) : (SortedMap.find page pages).isSome = true ↔
    ∃ bit < kPageBits, pages.tainted (page * kPageBits + bit) = true := by
  have hread : ∀ bit < kPageBits, pages.tainted (page * kPageBits + bit) =
      (SortedMap.find page pages).any fun bm => bm.getLsbD bit := by
    intro bit hbit
    rw [page_map_t.tainted, Nat.mul_comm, Nat.mul_add_div (by decide), Nat.div_eq_of_lt hbit, Nat.add_zero,
      Nat.mul_add_mod, Nat.mod_eq_of_lt hbit]
  constructor
  · intro hsome
    obtain ⟨bm, hfind⟩ := Option.isSome_iff_exists.mp hsome
    obtain ⟨bit, hbit, ht⟩ := h.filled _ ((SortedMap.find_eq_some h.sorted).mp hfind)
    exact ⟨bit, hbit, by rw [hread bit hbit, hfind]; exact ht⟩
  · rintro ⟨bit, hbit, ht⟩
    rw [hread bit hbit] at ht
    cases hfind : SortedMap.find page pages with
    | none =>
      rw [hfind] at ht
      cases ht
    | some bm => rfl

/-- The loops come to a byte. -/
def page_map_t.visited (pages : page_map_t) (a : Nat) : Prop := (SortedMap.find (a / kPageBits) pages).isSome = true

private theorem mem_marks (h : pages.Valid) {a : Nat} {t : Bool} :
    (a, t) ∈ page_bits pages ↔ pages.visited a ∧ t = pages.tainted a := mem_page_bits h.sorted

private theorem visited_of_tainted {a : Nat} (ha : pages.tainted a = true) : pages.visited a := by
  rw [page_map_t.tainted] at ha
  rw [page_map_t.visited]
  cases hfind : SortedMap.find (a / kPageBits) pages with
  | none =>
    rw [hfind] at ha
    cases ha
  | some bm => rfl

/-- Only behind the last byte of a page the loops may leave bytes out. -/
theorem visited_succ {a : Nat} (ha : pages.visited a) (hpage : a % kPageBits ≠ kPageBits - 1) : pages.visited (a + 1) := by
  have hsame : (a + 1) / kPageBits = a / kPageBits := by
    rw [kPageBits] at hpage ⊢
    omega
  rw [page_map_t.visited, hsame]
  exact ha

private theorem visited_next {page : Nat} (h : pages.Valid) (hnext : ∃ bit < kPageBits, pages.tainted (page * kPageBits + bit) = true) :
    pages.visited (page * kPageBits) := by
  rw [page_map_t.visited, Nat.mul_div_cancel _ (by decide)]
  exact (isSome_find_iff h page).mpr hnext

/-- Between two bytes that the loops come to they leave none out if all that they come to is tainted. -/
theorem visited_between (h : pages.Valid) (hclosed : ClosedPages pages) {s e : Nat} (hs : pages.visited s) (he : pages.visited e)
    (hin : ∀ a, s ≤ a → a < e → pages.visited a → pages.tainted a = true) : ∀ a, s ≤ a → a < e → pages.visited a := by
  intro a hlow
  induction a, hlow using Nat.le_induction with
  | base => exact fun _ => hs
  | succ a hlow ih =>
    intro hlt
    have ha := ih (by omega)
    by_cases hpage : a % kPageBits = kPageBits - 1
    · -- the byte is the last one of its page, so that there is a next page before `e`
      have hsplit := Nat.div_add_mod' a kPageBits
      rw [hpage] at hsplit
      have hnext : (a / kPageBits + 1) * kPageBits = a + 1 := by
        rw [kPageBits] at hsplit ⊢
        omega
      rcases hclosed (a / kPageBits) (by rw [hsplit]; exact hin a hlow (by omega) ha) with hfilled | ⟨hend, -, -⟩
      · rw [← hnext]
        exact visited_next h hfilled
      · obtain ⟨bit, hbit, ht⟩ := (isSome_find_iff h _).mp he
        have hlast := hend _ ht
        have hdiv := Nat.div_add_mod' e kPageBits
        have hmono : a / kPageBits + 1 ≤ e / kPageBits := by
          rw [kPageBits] at hnext ⊢
          omega
        have hmul := Nat.mul_le_mul_right kPageBits hmono
        omega
    · exact visited_succ ha hpage

/-- Of the pages one is the last. -/
theorem exists_last_page {page : Nat} (hsome : (SortedMap.find page pages).isSome = true) (h : SortedMap.Sorted pages) :
    ∃ last, (SortedMap.find last pages).isSome = true ∧ ∀ q, (SortedMap.find q pages).isSome = true → q ≤ last := by
  have hmem : ∀ q, (SortedMap.find q pages).isSome = true ↔ q ∈ pages.map Prod.fst := by
    intro q
    rw [Option.isSome_iff_exists, List.mem_map]
    constructor
    · rintro ⟨bm, hbm⟩
      exact ⟨_, (SortedMap.find_eq_some h).mp hbm, rfl⟩
    · rintro ⟨⟨q, bm⟩, hq, rfl⟩
      exact ⟨bm, (SortedMap.find_eq_some h).mpr hq⟩
  have hne : pages.map Prod.fst ≠ [] := List.ne_nil_of_mem ((hmem page).mp hsome)
  obtain ⟨last, hlast⟩ := Option.isSome_iff_exists.mp (List.isSome_max?_of_ne_nil hne)
  obtain ⟨hin, hmax⟩ := List.max?_eq_some_iff.mp hlast
  exact ⟨last, (hmem last).mpr hin, fun q hq => hmax q ((hmem q).mp hq)⟩

/-- Where the pages are closed, the interval that is open at the end is the whole of the last page. -/
theorem last_span (h : pages.Valid) (hclosed : ClosedPages pages) {s : Nat} (hlast : Spans.last none (page_bits pages) = some s) :
    (∀ a, pages.tainted a = true → a < s + kPageBits) ∧ ∀ a, s ≤ a → a < s + kPageBits → pages.tainted a = true := by
  have hspans := page_spans h
  obtain ⟨hbefore, hbehind⟩ := hspans.behind s hlast
  have hs : pages.visited s := by
    rcases hspans.start_fin s hlast with hnone | hmem
    · cases hnone
    · exact ((mem_marks h).mp hmem).1
  have hopen : ∀ a, s ≤ a → pages.visited a → pages.tainted a = true := by
    intro a hlow ha
    exact hbehind (a, pages.tainted a) ((mem_marks h).mpr ⟨ha, rfl⟩) hlow
  obtain ⟨page, hpage, hmax⟩ := exists_last_page hs h.sorted
  have hsplit := Nat.div_add_mod' s kPageBits
  have hle := Nat.mul_le_mul_right kPageBits (hmax _ hs)
  have hmod : s % kPageBits < kPageBits := Nat.mod_lt _ (by decide)
  have hvisited : ∀ bit < kPageBits, pages.visited (page * kPageBits + bit) := by
    intro bit hbit
    rw [page_map_t.visited, Nat.mul_comm, Nat.mul_add_div (by decide), Nat.div_eq_of_lt hbit, Nat.add_zero]
    exact hpage
  have hpos : 0 < kPageBits := by decide
  have hfirst : pages.visited (page * kPageBits) := by
    have hzero := hvisited 0 hpos
    rwa [Nat.add_zero] at hzero
  have htop := hopen _ (by omega) (hvisited (kPageBits - 1) (by omega))
  rcases hclosed page htop with hnext | ⟨hend, hall, hstart⟩
  · have hin := hmax _ ((isSome_find_iff h (page + 1)).mpr hnext)
    omega
  have hsame : s = page * kPageBits := by
    rcases Nat.lt_trichotomy s (page * kPageBits) with hlt | heq | hgt
    · -- the byte before the page would be tainted
      obtain ⟨b, hb⟩ : ∃ b, page * kPageBits = b + 1 := ⟨page * kPageBits - 1, by omega⟩
      have hb' := visited_between h hclosed hs hfirst (fun a hlow _ ha => hopen a hlow ha) b (by omega) (by omega)
      have ht := hopen b (by omega) hb'
      rw [hstart b hb] at ht
      cases ht
    · exact heq
    · -- the page would begin with an interval that is closed within it
      have hmark : (page * kPageBits, true) ∈ page_bits pages := by
        have hzero := hall 0 hpos
        rw [Nat.add_zero] at hzero
        exact (mem_marks h).mpr ⟨hfirst, hzero.symm⟩
      rcases hspans.marked _ hmark rfl with ⟨x, hx, hlow, hhigh⟩ | ⟨s', hs', hle'⟩
      · have hstop := ((mem_marks h).mp (hspans.stop x hx)).2
        have hxs := hbefore x hx
        have hx2 := hall (x.2 - page * kPageBits) (by omega)
        rw [Nat.add_sub_of_le (by omega), ← hstop] at hx2
        cases hx2
      · rw [hlast] at hs'
        cases hs'
        dsimp only at hle'
        omega
  subst hsame
  refine ⟨fun a ha => ?_, fun a hlow hhigh => ?_⟩
  · have hlt := hend a ha
    rw [Nat.add_mul, Nat.one_mul] at hlt
    exact hlt
  · have ht := hall (a - page * kPageBits) (by omega)
    rwa [Nat.add_sub_of_le hlow] at ht

private theorem maximal_of_closed (h : pages.Valid) (hclosed : ClosedPages pages) :
    Spans.Maximal (fun a => pages.tainted a = true) (all_spans pages) := by
  have hspans := page_spans h
  have hin : ∀ x ∈ Spans.closed none (page_bits pages), ∀ a, x.1 ≤ a → a < x.2 → pages.tainted a = true := by
    intro x hx
    have hinside : ∀ a, x.1 ≤ a → a < x.2 → pages.visited a → pages.tainted a = true := by
      intro a hlow hhigh ha
      exact hspans.inside x hx (a, pages.tainted a) ((mem_marks h).mpr ⟨ha, rfl⟩) hlow hhigh
    have hstart : pages.visited x.1 :=
      ((mem_marks h).mp ((hspans.start x hx).2.resolve_left (Option.some_ne_none _).symm)).1
    have hvisited := visited_between h hclosed hstart ((mem_marks h).mp (hspans.stop x hx)).1 hinside
    exact fun a hlow hhigh => hinside a hlow hhigh (hvisited a hlow hhigh)
  refine ⟨all_spans_separated h, fun x hx => ?_, fun a => ⟨fun ha => ?_, ?_⟩⟩
  · rcases mem_all_spans.mp hx with hx | ⟨s, -, rfl⟩
    · exact (hspans.start x hx).1
    · exact Nat.lt_add_of_pos_right (by decide)
  · have hmark : (a, true) ∈ page_bits pages := (mem_marks h).mpr ⟨visited_of_tainted ha, ha.symm⟩
    rcases hspans.marked _ hmark rfl with ⟨x, hx, hbounds⟩ | ⟨s, hs, hle⟩
    · exact ⟨x, mem_all_spans.mpr (.inl hx), hbounds⟩
    · exact ⟨_, mem_all_spans.mpr (.inr ⟨s, hs, rfl⟩), hle, (last_span h hclosed hs).1 a ha⟩
  · rintro ⟨x, hx, hlow, hhigh⟩
    rcases mem_all_spans.mp hx with hx | ⟨s, hs, rfl⟩
    · exact hin x hx a hlow hhigh
    · exact (last_span h hclosed hs).2 a hlow hhigh

private theorem closed_of_maximal (h : pages.Valid) (hmax : Spans.Maximal (fun a => pages.tainted a = true) (all_spans pages)) :
    ClosedPages pages := by
  have hspans := page_spans h
  intro page htop
  have hpos : 0 < kPageBits := by decide
  have hnextpage : (page + 1) * kPageBits = page * kPageBits + kPageBits := by rw [Nat.add_mul, Nat.one_mul]
  by_cases hnext : ∃ bit < kPageBits, pages.tainted ((page + 1) * kPageBits + bit) = true
  · exact .inl hnext
  refine .inr ?_
  obtain ⟨x, hx, hlow, hhigh⟩ := (hmax.covers _).mp htop
  have hbehind : ¬ pages.tainted ((page + 1) * kPageBits) = true := fun ht => hnext ⟨0, hpos, by rwa [Nat.add_zero]⟩
  -- the interval ends with the page
  have hend : x.2 = (page + 1) * kPageBits := by
    by_contra hne
    exact hbehind ((hmax.covers _).mpr ⟨x, hx, by omega, by omega⟩)
  rcases mem_all_spans.mp hx with hx | ⟨s, hs, rfl⟩
  · have hvisited := ((mem_marks h).mp (hspans.stop x hx)).1
    rw [hend, page_map_t.visited, Nat.mul_div_cancel _ hpos] at hvisited
    exact absurd ((isSome_find_iff h _).mp hvisited) hnext
  · dsimp only at hend hlow
    have hstart : s = page * kPageBits := by omega
    have hbefore := (hspans.behind s hs).1
    refine ⟨fun a ha => ?_, fun bit hbit => ?_, fun b hb => ?_⟩
    · obtain ⟨y, hy, -, hya⟩ := (hmax.covers a).mp ha
      rcases mem_all_spans.mp hy with hy | ⟨s', hs', rfl⟩
      · have hlt := hbefore y hy
        omega
      · cases hs.symm.trans hs'
        exact hend ▸ hya
    · refine (hmax.covers _).mpr ⟨_, hx, ?_, ?_⟩
      · dsimp only
        omega
      · dsimp only
        omega
    · by_contra hnot
      obtain ⟨y, hy, hylow, hyb⟩ := (hmax.covers b).mp (eq_true_of_ne_false hnot)
      rcases mem_all_spans.mp hy with hy | ⟨s', hs', rfl⟩
      · have hlt := hbefore y hy
        omega
      · cases hs.symm.trans hs'
        dsimp only at hylow
        omega

private theorem span_span_range (x : Nat × Nat) (hx : x.1 < x.2) : (span_range x).span = x := by
  rw [span_range, taint_range_t.span]
  exact Prod.ext rfl (Nat.add_sub_cancel' (Nat.le_of_lt hx))

private theorem report_iff (h : pages.Valid) (max_ranges : Nat) : IsReport pages (tainted_ranges pages max_ranges) ↔
    ClosedPages pages ∧ (Spans.starts fun a => pages.tainted a = true).encard ≤ max_ranges := by
  have hspans := page_spans h
  have hstarts : ∀ x ∈ all_spans pages, x.1 < x.2 ∧ pages.tainted x.1 = true := by
    intro x hx
    have hmarked : ∀ {s}, (s, true) ∈ page_bits pages → pages.tainted s = true := fun hs => ((mem_marks h).mp hs).2.symm
    rcases mem_all_spans.mp hx with hx | ⟨s, hs, rfl⟩
    · obtain ⟨hlt, hnone | hmem⟩ := hspans.start x hx
      · cases hnone
      · exact ⟨hlt, hmarked hmem⟩
    · refine ⟨Nat.lt_add_of_pos_right (by decide), ?_⟩
      rcases hspans.start_fin s hs with hnone | hmem
      · cases hnone
      · exact hmarked hmem
  have hmap : (tainted_ranges pages max_ranges).map taint_range_t.span = (all_spans pages).take max_ranges := by
    rw [tainted_ranges_eq, List.map_map]
    refine (List.map_congr_left fun x hx => ?_).trans (List.map_id _)
    exact span_span_range x (hstarts x (List.mem_of_mem_take hx)).1
  rw [IsReport, hmap]
  constructor
  · intro hmax
    have hlen := hmax.length_le (all_spans_separated h) fun x hx => (hstarts x hx).2
    rw [List.take_of_length_le hlen] at hmax
    refine ⟨closed_of_maximal h hmax, ?_⟩
    rw [hmax.encard_starts]
    exact_mod_cast hlen
  · rintro ⟨hclosed, hfew⟩
    have hmax := maximal_of_closed h hclosed
    rw [hmax.encard_starts] at hfew
    rw [List.take_of_length_le (by exact_mod_cast hfew)]
    exact hmax

end

/-- The pages after some calls of `mark_memory`. -/
def marked (calls : List (UInt64 × Nat)) : page_map_t := calls.foldl (fun pages call => pages.mark_memory call.1 call.2) []

private theorem marked_append (calls : List (UInt64 × Nat)) (addr : UInt64) (len : Nat) :
    marked (calls ++ [(addr, len)]) = (marked calls).mark_memory addr len := by
  rw [marked, List.foldl_append]
  rfl

private theorem valid_marked (calls : List (UInt64 × Nat)) : (marked calls).Valid := by
  induction calls using List.reverseRecOn with
  | nil => exact valid_nil
  | append_singleton calls call ih =>
    rw [marked_append]
    exact (mark_memory_spec ih call.1 call.2).1

/-- The pages hold the bytes that the calls taint. -/
theorem refines_marked (calls : List (UInt64 × Nat)) :
    Refines (marked calls) (calls.foldl (fun t call => t.mark_memory call.1 call.2) {}) := by
  induction calls using List.reverseRecOn with
  | nil => exact fun a => rfl
  | append_singleton calls call ih =>
    rw [marked_append, List.foldl_append]
    exact ih.mark_memory (valid_marked calls) call.1 call.2

/-- The report of the tainted bytes is right exactly if there is room for all intervals, and each page whose last byte
is tainted has a page behind it, or is the last one and an interval of its own. -/
theorem tainted_ranges_report (calls : List (UInt64 × Nat)) (max_ranges : Nat) :
    IsReport (marked calls) (tainted_ranges (marked calls) max_ranges) ↔
      ClosedPages (marked calls) ∧ (Spans.starts fun a => (marked calls).tainted a = true).encard ≤ max_ranges :=
  report_iff (valid_marked calls) max_ranges

/-- Of one tainted byte, the last one of a page, the rest of a page is reported as well. -/
theorem last_byte_misreported : ¬ ∀ calls, IsReport (marked calls) (tainted_ranges (marked calls) 1024) := by
  intro hall
  have htainted : ∀ b, (marked [(0xFFF, 1)]).tainted b = true ↔ b = 4095 := by
    intro b
    rw [marked, List.foldl_cons, List.foldl_nil, (mark_memory_spec valid_nil _ _).2]
    constructor
    · rintro (hnil | ⟨i, hi, hb⟩)
      · cases hnil
      · obtain rfl : i = 0 := by omega
        exact hb
    · exact fun hb => .inr ⟨0, Nat.one_pos, hb⟩
  obtain ⟨hclosed, -⟩ := (report_iff (valid_marked [(0xFFF, 1)]) 1024).mp (hall [(0xFFF, 1)])
  rcases hclosed 0 ((htainted _).mpr rfl) with ⟨bit, -, hnext⟩ | ⟨-, hpage, -⟩
  · have hbyte := (htainted _).mp hnext
    rw [kPageBits] at hbyte
    omega
  · exact absurd ((htainted _).mp (hpage 0 (by decide))) (by decide)

end slop.core.emu
