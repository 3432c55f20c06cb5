import ReverseSlop.Core.Memory.Aob.ReferenceLaw

namespace slop.core.memory

open detail (seg_t Grid)

/-- A match inside the region, all of whose bytes can be read. -/
def aob_pattern_t.Found (p : aob_pattern_t) (mem : memory_t) (reg : scan_region_t) (a : Nat) : Prop :=
  reg.Holds a p.size ∧ (⟨a, p.size⟩ : seg_t).Readable mem ∧ p.MatchesAt mem a

instance (p : aob_pattern_t) (mem : memory_t) (reg : scan_region_t) (a : Nat) : Decidable (p.Found mem reg a) :=
  inferInstanceAs (Decidable (_ ∧ (∀ _, _ → _ → _) ∧ _))

/-- The number of matches, region by region. -/
def aob_pattern_t.found_count (p : aob_pattern_t) (mem : memory_t) (regions : List scan_region_t) : Nat :=
  (regions.map fun reg => (List.range' reg.base reg.size).countP fun a => p.Found mem reg a).sum

/-- One page more cannot be read. -/
def memory_t.without (mem : memory_t) (page : Nat) : memory_t := fun a => if a / 4096 = page then none else mem a

/-- The match has no byte on the page. -/
def aob_pattern_t.Misses (p : aob_pattern_t) (page a : Nat) : Prop := ∀ i < p.size, (a + i) / 4096 ≠ page

section

variable {opt : aob_scan_options_t} {p : aob_pattern_t} {mem : memory_t} {exec : aob_exec_t}
  {regions : List scan_region_t} {reg : scan_region_t} {a : Nat}

/-- What one region contributes: the matches that its walk serves. -/
theorem mem_region_seen (halign : opt.align = 1) (hchunk : p.size ≤ opt.chunk) :
    (∃ s ∈ aob_span opt p reg, a ∈ span_seen opt p mem s.e s.b) ↔ p.Found mem reg a ∧ Served opt p mem reg a := by
  have hpos := p.size_pos
  have hround : opt.round_up reg.base = reg.base := by
    rw [aob_scan_options_t.round_up, halign, Nat.add_sub_cancel, Nat.div_one, Nat.mul_one]
  have hfit : opt.ChunksFit p reg.base (reg.base + reg.size) := .inr (.inr hchunk)
  constructor
  · rintro ⟨s, hspan, ha⟩
    obtain ⟨hb, he⟩ := aob_span_eq_some hspan
    rw [hb, he, hround, mem_span_seen halign hfit] at ha
    obtain ⟨hlo, hhi, hmatch, c, hc, t, hgrid, hreadable, hcovers⟩ := ha
    refine ⟨⟨⟨hlo, hhi⟩, fun x hx hx' => ?_, hmatch⟩, c, hround.symm ▸ hc, t, hgrid, hreadable, hcovers⟩
    obtain ⟨hcovers, hcovers'⟩ := hcovers
    dsimp only at hx hx'
    exact hreadable x (by omega) (by omega)
  · rintro ⟨⟨⟨hlo, hhi⟩, -, hmatch⟩, hserved⟩
    rw [Served, hround] at hserved
    refine ⟨⟨reg.base, reg.base + reg.size⟩, ?_, (mem_span_seen halign hfit).mpr ⟨hlo, hhi, hmatch, hserved⟩⟩
    rw [aob_span, if_neg (by omega), hround]
    exact if_neg (by omega)

private theorem mem_raw_seen (halign : opt.align = 1) (hchunk : p.size ≤ opt.chunk) :
    a ∈ raw_seen opt p mem regions ↔ ∃ reg ∈ regions, p.Found mem reg a ∧ Served opt p mem reg a := by
  simp only [raw_seen, aob_spans, List.mem_flatMap, List.mem_filterMap]
  constructor
  · rintro ⟨s, ⟨reg, hreg, hspan⟩, ha⟩
    exact ⟨reg, hreg, (mem_region_seen halign hchunk).mp ⟨s, hspan, ha⟩⟩
  · rintro ⟨reg, hreg, hseen⟩
    obtain ⟨s, hspan, ha⟩ := (mem_region_seen halign hchunk).mpr hseen
    exact ⟨s, ⟨reg, hreg, hspan⟩, ha⟩

private theorem raw_seen_length_le (halign : opt.align = 1) (hchunk : p.size ≤ opt.chunk) :
    (raw_seen opt p mem regions).length ≤ p.found_count mem regions := by
  induction regions with
  | nil => exact Nat.zero_le _
  | cons reg regions ih =>
    have hcount : ∀ s ∈ aob_span opt p reg, (span_seen opt p mem s.e s.b).length ≤
        (List.range' reg.base reg.size).countP fun a => p.Found mem reg a := by
      intro s hspan
      rw [List.countP_eq_length_filter]
      refine ((nodup_span_seen halign (.inr (.inr hchunk))).subperm fun a ha => ?_).length_le
      have hfound := ((mem_region_seen halign hchunk).mp ⟨s, hspan, ha⟩).1
      have hpos := p.size_pos
      obtain ⟨hlo, hhi⟩ := hfound.1
      exact List.mem_filter.mpr ⟨List.mem_range'_1.mpr ⟨hlo, by omega⟩, decide_eq_true hfound⟩
    rw [aob_pattern_t.found_count, List.map_cons, List.sum_cons]
    rw [raw_seen, aob_spans, List.filterMap_cons]
    cases hspan : aob_span opt p reg with
    | none => exact ih.trans (Nat.le_add_left _ _)
    | some s =>
      dsimp only
      rw [List.flatMap_cons, List.length_append]
      exact Nat.add_le_add (hcount s hspan) ih

private theorem aob_spans_fit (hchunk : p.size ≤ opt.chunk) :
    ∀ s ∈ aob_spans opt p regions, s.e ≤ user_space_end ∧ opt.ChunksFit p s.b s.e := by
  intro s hs
  obtain ⟨reg, -, hspan⟩ := List.mem_filterMap.mp hs
  obtain ⟨-, he⟩ := aob_span_eq_some hspan
  exact ⟨he ▸ reg.in_user_space, .inr (.inr hchunk)⟩

/-- Below the cap the scan reports the matches that are served. -/
theorem aob_scan_served (hsteady : exec.Steady mem) (halign : opt.align = 1) (hchunk : p.size ≤ opt.chunk)
    (hroom : p.found_count mem regions ≤ opt.result_cap) :
    ∃ res, aob_scan exec regions p opt = some res ∧
      ∀ a, a ∈ res.addresses ↔ ∃ reg ∈ regions, p.Found mem reg a ∧ Served opt p mem reg a := by
  obtain ⟨res, hscan, -, hmem⟩ := aob_scan_all_seen hsteady (aob_spans_fit hchunk) ((raw_seen_length_le halign hchunk).trans hroom)
  exact ⟨res, hscan, fun a => (hmem a).trans (mem_raw_seen halign hchunk)⟩

/-- A region shows no address twice, so that fewer regions than the cap do not fill the result with one address. -/
theorem aob_scan_one (hsteady : exec.Steady mem) (halign : opt.align = 1) (hchunk : p.size ≤ opt.chunk)
    (hregions : regions.length < opt.result_cap) :
    ∃ res, aob_scan exec regions p opt = some res ∧
      (res.addresses.length = 1 ↔ ∃! a, ∃ reg ∈ regions, p.Found mem reg a ∧ Served opt p mem reg a) := by
  obtain ⟨res, hscan, hsorted, hmem⟩ := aob_scan_seen hsteady (aob_spans_fit hchunk)
  refine ⟨res, hscan, ?_⟩
  have hperm := exec.span_order_perm opt (aob_spans opt p regions)
  have hcount (a : Nat) : ((exec.span_order opt (aob_spans opt p regions)).flatMap fun s =>
      span_seen opt p mem s.e s.b).count a < opt.result_cap := by
    have hspan : ∀ n ∈ (exec.span_order opt (aob_spans opt p regions)).map
        (List.count a ∘ fun s => span_seen opt p mem s.e s.b), n ≤ 1 := by
      intro n hn
      obtain ⟨s, -, rfl⟩ := List.mem_map.mp hn
      exact List.nodup_iff_count_le_one.mp (nodup_span_seen halign (.inr (.inr hchunk))) a
    have hsum := List.sum_le_card_nsmul _ 1 hspan
    have hspans : (aob_spans opt p regions).length ≤ regions.length := List.length_filterMap_le _ _
    rw [List.length_map, hperm.length_eq, Nat.nsmul_eq_mul, Nat.mul_one] at hsum
    rw [List.count_flatMap]
    omega
  have hnodup : res.addresses.Nodup := hsorted.imp fun h => h.ne
  rw [hnodup.length_eq_one_iff]
  simp only [hmem]
  rw [Capped.existsUnique_mem_take _ hcount]
  refine existsUnique_congr fun a => ?_
  rw [← mem_raw_seen halign hchunk]
  exact (hperm.flatMap_right _).mem_iff

/-- A region without holes serves all its matches. -/
theorem served_of_readable (halign : opt.align = 1) (hchunk : p.size ≤ opt.chunk) (hreadable : mem.Readable [reg])
    (hfound : p.Found mem reg a) : Served opt p mem reg a := by
  have hround : opt.round_up reg.base = reg.base := by
    rw [aob_scan_options_t.round_up, halign, Nat.add_sub_cancel, Nat.div_one, Nat.mul_one]
  obtain ⟨⟨hlo, hhi⟩, -, hmatch⟩ := hfound
  have hdvd (n : Nat) : opt.align ∣ n := by
    rw [halign]
    exact Nat.one_dvd n
  have hseen : a ∈ span_seen opt p mem (reg.base + reg.size) reg.base := by
    rw [span_seen_eq (hreadable reg List.mem_cons_self),
      mem_span_hits_aligned (hdvd _) (.inr (.inr ⟨hchunk, hdvd _⟩))]
    exact ⟨hlo, hhi, hdvd a, hmatch⟩
  rw [Served, hround]
  exact ((mem_span_seen halign (.inr (.inr hchunk))).mp hseen).2.2.2

private theorem bytes_at_congr {mem' : memory_t} {addr len : Nat} (hsame : ∀ i < len, mem (addr + i) = mem' (addr + i)) :
    mem.bytes_at addr len = mem'.bytes_at addr len := by
  refine List.map_congr_left fun x hx => ?_
  obtain ⟨hlo, hhi⟩ := List.mem_range'_1.mp hx
  have hbyte := hsame (x - addr) (by omega)
  rw [Nat.add_sub_cancel' hlo] at hbyte
  rw [memory_t.peek, memory_t.peek, hbyte]

private theorem without_of_misses {page i : Nat} (hmisses : p.Misses page a) (hi : i < p.size) :
    mem.without page (a + i) = mem (a + i) :=
  if_neg (hmisses i hi)

/-- What is left of the matches are those that miss the page. -/
theorem found_without_iff {page : Nat} : p.Found (mem.without page) reg a ↔ p.Found mem reg a ∧ p.Misses page a := by
  have hbytes (hmisses : p.Misses page a) : p.MatchesAt (mem.without page) a ↔ p.MatchesAt mem a := by
    rw [aob_pattern_t.MatchesAt, aob_pattern_t.MatchesAt, bytes_at_congr fun i hi => without_of_misses hmisses hi]
  constructor
  · rintro ⟨hholds, hreadable, hmatch⟩
    have hmisses : p.Misses page a := by
      intro i hi heq
      have hbyte := hreadable (a + i) (Nat.le_add_right a i) (Nat.add_lt_add_left hi a)
      rw [memory_t.without, if_pos heq] at hbyte
      cases hbyte
    refine ⟨⟨hholds, fun x hlo hhi => ?_, (hbytes hmisses).mp hmatch⟩, hmisses⟩
    have hbyte := hreadable x hlo hhi
    rw [memory_t.without] at hbyte
    split at hbyte
    · cases hbyte
    · exact hbyte
  · rintro ⟨⟨hholds, hreadable, hmatch⟩, hmisses⟩
    refine ⟨hholds, fun x hlo hhi => ?_, (hbytes hmisses).mpr hmatch⟩
    dsimp only at hlo hhi
    have hsame : mem.without page (a + (x - a)) = mem (a + (x - a)) := without_of_misses hmisses (by omega)
    rw [Nat.add_sub_cancel' hlo] at hsame
    rw [hsame]
    exact hreadable x hlo hhi

private theorem found_count_without (page : Nat) : p.found_count (mem.without page) regions ≤ p.found_count mem regions := by
  refine List.sum_le_sum fun reg _ => List.countP_mono_left fun a _ hfound => ?_
  exact decide_eq_true (found_without_iff.mp (of_decide_eq_true hfound)).1

private theorem found_count_le (p : aob_pattern_t) (mem : memory_t) (regions : List scan_region_t) :
    p.found_count mem regions ≤ (regions.map scan_region_t.size).sum := by
  apply List.sum_le_sum
  intro reg _
  simpa using List.countP_le_length (l := List.range' reg.base reg.size) (p := fun a => decide (p.Found mem reg a))

end

/-- Every match that can be read is reported, and a page that cannot be read takes away no other matches than those on it. -/
def HoleIndependent (p : aob_pattern_t) (mem : memory_t) (reg : scan_region_t) (page : Nat) (res res' : aob_result_t) : Prop :=
  (∀ a, p.Found mem reg a → a ∈ res.addresses) ∧ ∀ a ∈ res.addresses, p.Misses page a → a ∈ res'.addresses

/-- The holes do not matter exactly if every match is served, and those off the page still are without it. -/
theorem aob_scan_holes {opt : aob_scan_options_t} {p : aob_pattern_t} {mem : memory_t} {exec exec' : aob_exec_t}
    {reg : scan_region_t} {page : Nat} (hsteady : exec.Steady mem) (hsteady' : exec'.Steady (mem.without page))
    (halign : opt.align = 1) (hchunk : p.size ≤ opt.chunk) (hroom : p.found_count mem [reg] ≤ opt.result_cap) :
    ∃ res res', aob_scan exec [reg] p opt = some res ∧ aob_scan exec' [reg] p opt = some res' ∧
      (HoleIndependent p mem reg page res res' ↔
        (∀ a, p.Found mem reg a → Served opt p mem reg a) ∧
          ∀ a, p.Found mem reg a → Served opt p mem reg a → p.Misses page a → Served opt p (mem.without page) reg a) := by
  obtain ⟨res, hscan, hmem⟩ := aob_scan_served hsteady halign hchunk hroom
  obtain ⟨res', hscan', hmem'⟩ := aob_scan_served hsteady' halign hchunk ((found_count_without page).trans hroom)
  simp only [List.mem_singleton, exists_eq_left] at hmem hmem'
  refine ⟨res, res', hscan, hscan', ?_⟩
  simp only [HoleIndependent, hmem, hmem', found_without_iff]
  refine and_congr ⟨fun hall a hfound => (hall a hfound).2, fun hall a hfound => ⟨hfound, hall a hfound⟩⟩ ⟨?_, ?_⟩
  · intro hkept a hfound hserved hmisses
    exact (hkept a ⟨hfound, hserved⟩ hmisses).2
  · rintro hkept a ⟨hfound, hserved⟩ hmisses
    exact ⟨⟨hfound, hmisses⟩, hkept a hfound hserved hmisses⟩

/-- `CC CC`. -/
def two_traps : aob_pattern_t := ⟨[0xCC, 0xCC], [0xFF, 0xFF], rfl, by decide⟩

def two_pages : scan_region_t := { base := 0x10000, size := 0x2000, in_user_space := by decide }

def three_pages : scan_region_t := { base := 0x10000, size := 0x3000, in_user_space := by decide }

/-- Two traps end a page, and the page behind it is the hole: the chunk is cut between the two pages. -/
theorem aob_scan_holes_beside :
    ∃ res res', aob_scan (.single (planted 0x10FFE [0xCC, 0xCC])) [two_pages] two_traps {} = some res ∧
      aob_scan (.single ((planted 0x10FFE [0xCC, 0xCC]).without 0x11)) [two_pages] two_traps {} = some res' ∧
      HoleIndependent two_traps (planted 0x10FFE [0xCC, 0xCC]) two_pages 0x11 res res' := by
  have halign : ({} : aob_scan_options_t).align = 1 := rfl
  have hchunk : two_traps.size ≤ ({} : aob_scan_options_t).chunk := by decide
  have hroom : two_traps.found_count (planted 0x10FFE [0xCC, 0xCC]) [two_pages] ≤ ({} : aob_scan_options_t).result_cap :=
    (found_count_le _ _ _).trans (by decide)
  obtain ⟨res, res', hscan, hscan', hiff⟩ := aob_scan_holes (aob_exec_t.single_steady (planted 0x10FFE [0xCC, 0xCC]))
    (aob_exec_t.single_steady ((planted 0x10FFE [0xCC, 0xCC]).without 0x11)) halign hchunk hroom
  refine ⟨res, res', hscan, hscan', hiff.mpr ⟨fun a hfound => ?_, fun a hfound _ hmisses => ?_⟩⟩
  · exact served_of_readable halign hchunk (planted_readable _ _ _) hfound
  · have hsize : two_traps.size = 2 := rfl
    obtain ⟨⟨hlo, hhi⟩, -, -⟩ := hfound
    simp only [two_pages, hsize] at hlo hhi
    have hfirst : a / 4096 ≠ 0x11 := hmisses 0 (by decide)
    have hsecond : (a + 1) / 4096 ≠ 0x11 := hmisses 1 (by decide)
    have hbefore : a + 2 ≤ 0x11000 := by omega
    refine ⟨⟨0x10000, 0x2000⟩, ?_, ⟨0x10000, 0x1000⟩, .low (by decide) .whole, fun x _ hx => ?_, hlo, hbefore⟩
    · have hwhole : chunk_of {} two_traps ((planted 0x10FFE [0xCC, 0xCC]).without 0x11) 0x12000 0x10000 a =
          some ⟨0x10000, 0x2000⟩ := by
        rw [chunk_of, if_pos (by decide)]
        refine if_pos (lt_of_lt_of_le (show a < 0x11000 by omega) ?_)
        split <;> decide
      exact hwhole
    · dsimp only at hx
      rw [memory_t.without, if_neg (by omega)]
      rfl

/-- Two traps across a page boundary, and a page that does not touch them: the chunk is cut between them. -/
theorem straddling_match_lost :
    ∃ res res', aob_scan (.single (planted 0x10FFF [0xCC, 0xCC])) [three_pages] two_traps {} = some res ∧
      aob_scan (.single ((planted 0x10FFF [0xCC, 0xCC]).without 0x12)) [three_pages] two_traps {} = some res' ∧
      two_traps.Found ((planted 0x10FFF [0xCC, 0xCC]).without 0x12) three_pages 0x10FFF ∧ two_traps.Misses 0x12 0x10FFF ∧
      0x10FFF ∈ res.addresses ∧ 0x10FFF ∉ res'.addresses := by
  have halign : ({} : aob_scan_options_t).align = 1 := rfl
  have hchunk : two_traps.size ≤ ({} : aob_scan_options_t).chunk := by decide
  have hroom (mem : memory_t) : two_traps.found_count mem [three_pages] ≤ ({} : aob_scan_options_t).result_cap :=
    (found_count_le _ _ _).trans (by decide)
  have hfound : two_traps.Found (planted 0x10FFF [0xCC, 0xCC]) three_pages 0x10FFF :=
    ⟨by decide, fun _ _ _ => rfl, planted_matches two_traps 0x10FFF⟩
  have hmisses : two_traps.Misses 0x12 0x10FFF := by
    unfold aob_pattern_t.Misses
    decide
  obtain ⟨res, hscan, hmem⟩ := aob_scan_served (aob_exec_t.single_steady (planted 0x10FFF [0xCC, 0xCC])) halign hchunk (hroom _)
  obtain ⟨res', hscan', hmem'⟩ := aob_scan_served
    (aob_exec_t.single_steady ((planted 0x10FFF [0xCC, 0xCC]).without 0x12)) halign hchunk (hroom _)
  refine ⟨res, res', hscan, hscan', found_without_iff.mpr ⟨hfound, hmisses⟩, hmisses, ?_, ?_⟩
  · exact (hmem _).mpr ⟨three_pages, List.mem_cons_self, hfound,
      served_of_readable halign hchunk (planted_readable _ _ _) hfound⟩
  · rw [hmem']
    rintro ⟨reg, hreg, -, c, hc, t, hgrid, hreadable, hlo, hhi⟩
    rw [List.mem_singleton.mp hreg] at hc
    have hwhole : chunk_of {} two_traps ((planted 0x10FFF [0xCC, 0xCC]).without 0x12) 0x13000 0x10000 0x10FFF =
        some ⟨0x10000, 0x3000⟩ := by
      rw [chunk_of, if_pos (by decide)]
      refine if_pos ?_
      split <;> decide
    obtain rfl : ⟨0x10000, 0x3000⟩ = c := Option.some.inj (hwhole.symm.trans hc)
    have hsize : two_traps.size = 2 := rfl
    have hhalf : seg_t.half ⟨0x10000, 0x3000⟩ 4096 = 0x1000 := by decide
    rw [hsize] at hhi
    cases hgrid with
    | whole => exact absurd (hreadable 0x12000 (by decide) (by decide)) Bool.false_ne_true
    | low _ hnode =>
      have hbounds := hnode.bounds
      rw [hhalf] at hbounds
      dsimp only at hbounds
      omega
    | high _ hnode =>
      have hbounds := hnode.bounds
      rw [hhalf] at hbounds
      dsimp only at hbounds
      omega

end slop.core.memory
