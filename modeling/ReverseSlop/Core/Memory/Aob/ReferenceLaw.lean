import Mathlib.Algebra.Order.BigOperators.Group.List
import Mathlib.Data.List.Perm.Subperm
import ReverseSlop.Core.Memory.Aob.Workers

namespace slop.core.memory

/-- An aligned match inside the region. -/
def aob_pattern_t.Hit (p : aob_pattern_t) (mem : memory_t) (align : Nat) (reg : scan_region_t) (a : Nat) :
    Prop :=
  reg.Holds a p.size ∧ align ∣ a ∧ p.MatchesAt mem a

instance (p : aob_pattern_t) (mem : memory_t) (align : Nat) (reg : scan_region_t) (a : Nat) :
    Decidable (p.Hit mem align reg a) :=
  inferInstanceAs (Decidable (_ ∧ _ ∧ _))

/-- The number of aligned matches, region by region. -/
def aob_pattern_t.hit_count (p : aob_pattern_t) (mem : memory_t) (align : Nat)
    (regions : List scan_region_t) : Nat :=
  (regions.map fun reg => (List.range' reg.base reg.size).countP fun a => p.Hit mem align reg a).sum

/-- The result of the one-line scan: the aligned matches, ascending, each once. -/
def IsNaiveScan (p : aob_pattern_t) (mem : memory_t) (align : Nat) (regions : List scan_region_t)
    (addresses : List Nat) : Prop :=
  addresses.Pairwise (· < ·) ∧ ∀ a, a ∈ addresses ↔ ∃ reg ∈ regions, p.Hit mem align reg a

/-- The region is walked in one chunk, or every chunk but the last is at least as
long as the pattern and the step from chunk to chunk keeps the alignment. -/
def aob_scan_options_t.KeepsAlignment (opt : aob_scan_options_t) (p : aob_pattern_t) (reg : scan_region_t) :
    Prop :=
  reg.base + reg.size < opt.round_up reg.base + p.size ∨
    reg.base + reg.size - opt.round_up reg.base ≤ opt.chunk ∨
    (p.size ≤ opt.chunk ∧ opt.align ∣ opt.chunk - (p.size - 1))

theorem aob_scan_options_t.dvd_round_up (opt : aob_scan_options_t) (addr : Nat) :
    opt.align ∣ opt.round_up addr :=
  Nat.dvd_mul_left _ _

/-- Rounding up does not pass an aligned address. -/
theorem aob_scan_options_t.round_up_le_iff (opt : aob_scan_options_t) {addr a : Nat} (ha : opt.align ∣ a) :
    opt.round_up addr ≤ a ↔ addr ≤ a := by
  have hpos := opt.align_pos
  obtain ⟨k, rfl⟩ := ha
  unfold round_up
  rw [Nat.mul_comm, Nat.mul_le_mul_left_iff hpos, Nat.div_le_iff_le_mul_add_pred hpos]
  omega

theorem aob_scan_options_t.le_round_up (opt : aob_scan_options_t) (addr : Nat) : addr ≤ opt.round_up addr :=
  (opt.round_up_le_iff (opt.dvd_round_up addr)).mp le_rfl

section

variable {opt : aob_scan_options_t} {p : aob_pattern_t} {mem : memory_t}

theorem aob_span_eq_some {reg : scan_region_t} {s : span_t} (hspan : aob_span opt p reg = some s) :
    s.b = opt.round_up reg.base ∧ s.e = reg.base + reg.size := by
  unfold aob_span at hspan
  split at hspan
  · cases hspan
  · dsimp only at hspan
    split at hspan
    · cases hspan
    · cases hspan
      exact ⟨rfl, rfl⟩

/-- A region without a span has no room for an aligned match. -/
theorem aob_span_eq_none {reg : scan_region_t} (hspan : aob_span opt p reg = none) :
    reg.base + reg.size < opt.round_up reg.base + p.size := by
  have hpos := p.size_pos
  have hround := opt.le_round_up reg.base
  unfold aob_span at hspan
  split at hspan
  · omega
  · dsimp only at hspan
    split at hspan
    · omega
    · cases hspan

variable {regions : List scan_region_t}

theorem mem_raw_hits {a : Nat} :
    a ∈ raw_hits opt p mem regions ↔
      ∃ reg ∈ regions, ∃ s, aob_span opt p reg = some s ∧ a ∈ span_hits opt p mem s.e s.b := by
  simp only [raw_hits, aob_spans, List.mem_flatMap, List.mem_filterMap]
  constructor
  · rintro ⟨s, ⟨reg, hreg, hspan⟩, ha⟩
    exact ⟨reg, hreg, s, hspan, ha⟩
  · rintro ⟨reg, hreg, s, hspan, ha⟩
    exact ⟨s, ⟨reg, hreg, hspan⟩, ha⟩

/-- Where the chunk step keeps the alignment, the spans hold the aligned matches
of their regions. -/
theorem mem_raw_hits_iff_hit
    (hkeeps : ∀ reg ∈ regions, opt.KeepsAlignment p reg) (a : Nat) :
    a ∈ raw_hits opt p mem regions ↔ ∃ reg ∈ regions, p.Hit mem opt.align reg a := by
  rw [mem_raw_hits]
  constructor
  · rintro ⟨reg, hreg, s, hspan, ha⟩
    obtain ⟨hb, he⟩ := aob_span_eq_some hspan
    rw [hb, he, mem_span_hits_aligned (opt.dvd_round_up reg.base) (hkeeps reg hreg)] at ha
    obtain ⟨hlo, hhi, hdvd, hmatch⟩ := ha
    exact ⟨reg, hreg, ⟨(opt.le_round_up reg.base).trans hlo, hhi⟩, hdvd, hmatch⟩
  · rintro ⟨reg, hreg, ⟨hlo, hhi⟩, hdvd, hmatch⟩
    have hround := (opt.round_up_le_iff hdvd).mpr hlo
    cases hspan : aob_span opt p reg with
    | none =>
      have := aob_span_eq_none hspan
      omega
    | some s =>
      obtain ⟨hb, he⟩ := aob_span_eq_some hspan
      refine ⟨reg, hreg, s, hspan, ?_⟩
      rw [hb, he, mem_span_hits_aligned (opt.dvd_round_up reg.base) (hkeeps reg hreg)]
      exact ⟨hround, hhi, hdvd, hmatch⟩

/-- Every address a span visits lies inside its region. -/
theorem mem_span_hits_le {e cursor x : Nat} (hfit : opt.ChunksFit p cursor e)
    (hx : x ∈ span_hits opt p mem e cursor) : x + p.size ≤ e := by
  fun_induction span_hits opt p mem e cursor with
  | case1 cursor hmore want ih =>
    have hwant : p.size ≤ want := hfit.want_ge hmore
    rcases List.mem_append.mp hx with hx | hx
    · have := ((mem_window_hits opt p _ _ _ _ x).mp hx).2.1
      omega
    · exact ih (hfit.next hmore) hx
  | case2 => simp at hx

/-- A bound on the matches of every region bounds the matches of all spans. -/
theorem raw_hits_length_le
    (hfit : ∀ reg ∈ regions, opt.ChunksFit p (opt.round_up reg.base) (reg.base + reg.size))
    (bound : scan_region_t → List Nat) (hbound : ∀ reg ∈ regions, ∀ s, aob_span opt p reg = some s →
      ∀ a ∈ span_hits opt p mem s.e s.b, a ∈ bound reg) :
    (raw_hits opt p mem regions).length ≤ (regions.map fun reg => (bound reg).length).sum := by
  induction regions with
  | nil => simp [raw_hits, aob_spans]
  | cons reg regions ih =>
    have hrest := ih (fun reg' hreg' => hfit reg' (List.mem_cons_of_mem reg hreg'))
      fun reg' hreg' => hbound reg' (List.mem_cons_of_mem reg hreg')
    cases hspan : aob_span opt p reg with
    | none =>
      simp only [raw_hits, aob_spans, List.filterMap_cons, hspan, List.map_cons, List.sum_cons] at hrest ⊢
      omega
    | some s =>
      obtain ⟨hb, he⟩ := aob_span_eq_some hspan
      have hsorted : (span_hits opt p mem s.e s.b).Pairwise (· < ·) :=
        pairwise_span_hits (hb ▸ he ▸ hfit reg (by simp))
      have hnodup : (span_hits opt p mem s.e s.b).Nodup := hsorted.imp fun h => h.ne
      have hlen := (hnodup.subperm (hbound reg (by simp) s hspan)).length_le
      simp only [raw_hits, aob_spans, List.filterMap_cons, hspan, List.flatMap_cons, List.length_append,
        List.map_cons, List.sum_cons] at hrest ⊢
      omega

theorem aob_spans_safe (hreadable : mem.Readable regions)
    (hfit : ∀ reg ∈ regions, opt.ChunksFit p (opt.round_up reg.base) (reg.base + reg.size)) :
    ∀ s ∈ aob_spans opt p regions, s.e ≤ user_space_end ∧ opt.ChunksFit p s.b s.e ∧
      ∀ a, s.b ≤ a → a < s.e → (mem a).isSome := by
  intro s hs
  obtain ⟨reg, hreg, hspan⟩ := List.mem_filterMap.mp hs
  obtain ⟨hb, he⟩ := aob_span_eq_some hspan
  have hround := opt.le_round_up reg.base
  refine ⟨he ▸ reg.in_user_space, hb ▸ he ▸ hfit reg hreg, ?_⟩
  intro a hlo hhi
  exact hreadable reg hreg a (by omega) (by omega)

end

theorem planted_matches (p : aob_pattern_t) (addr : Nat) : p.MatchesAt (planted addr p.bytes) addr := by
  rw [aob_pattern_t.MatchesAt, aob_pattern_t.size, planted_bytes_at]
  exact aob_match_bytes p

/-- One thread that reads a memory standing still and is never cancelled. -/
def aob_exec_t.single (mem : memory_t) : aob_exec_t where
  hardware_concurrency := 1
  owner _ := 0
  finish _ := 0
  reader _ := mem.reader
  tok _ := ⟨fun _ => false⟩
  cancelled := false

theorem aob_exec_t.single_steady (mem : memory_t) : (aob_exec_t.single mem).Steady mem where
  reads _ _ _ _ := rfl
  live _ _ := rfl

theorem hit_count_le (p : aob_pattern_t) (mem : memory_t) (align : Nat) (regions : List scan_region_t) :
    p.hit_count mem align regions ≤ (regions.map scan_region_t.size).sum := by
  apply List.sum_le_sum
  intro reg _
  simpa using List.countP_le_length (l := List.range' reg.base reg.size) (p := fun a => decide (p.Hit mem align reg a))

section

variable {opt : aob_scan_options_t} {p : aob_pattern_t} {mem : memory_t} {exec : aob_exec_t}
  {regions : List scan_region_t} {res : aob_result_t}

/-- The scan equals the one-line scan wherever the chunk step keeps the
alignment. -/
theorem aob_scan_naive (hreadable : mem.Readable regions) (hsteady : exec.Steady mem)
    (hkeeps : ∀ reg ∈ regions, opt.KeepsAlignment p reg)
    (hroom : p.hit_count mem opt.align regions < opt.result_cap) :
    ∃ res, aob_scan exec regions p opt = some res ∧ IsNaiveScan p mem opt.align regions res.addresses := by
  have hfit : ∀ reg ∈ regions, opt.ChunksFit p (opt.round_up reg.base) (reg.base + reg.size) := by
    intro reg hreg
    have := hkeeps reg hreg
    unfold aob_scan_options_t.KeepsAlignment at this
    unfold aob_scan_options_t.ChunksFit
    omega
  have hraw : (raw_hits opt p mem regions).length ≤ p.hit_count mem opt.align regions := by
    refine (raw_hits_length_le hfit
      (fun reg => (List.range' reg.base reg.size).filter fun a => p.Hit mem opt.align reg a) ?_).trans_eq ?_
    · intro reg hreg s hspan a ha
      obtain ⟨hb, he⟩ := aob_span_eq_some hspan
      have hround := opt.le_round_up reg.base
      have hpos := p.size_pos
      rw [hb, he, mem_span_hits_aligned (opt.dvd_round_up reg.base) (hkeeps reg hreg)] at ha
      obtain ⟨hlo, hhi, hhit⟩ := ha
      simp only [List.mem_filter, List.mem_range'_1, decide_eq_true_eq]
      exact ⟨by omega, ⟨by omega, hhi⟩, hhit⟩
    · simp [aob_pattern_t.hit_count, List.countP_eq_length_filter]
  obtain ⟨res, hscan, hsorted, hmem⟩ := aob_scan_eq hsteady (aob_spans_safe hreadable hfit) (by omega)
  exact ⟨res, hscan, hsorted, fun a => (hmem a).trans (mem_raw_hits_iff_hit hkeeps a)⟩

/-- The second chunk of a long region starts at `b + chunk - (size - 1)`, and a
match there is reported whether or not the address is aligned. -/
theorem second_chunk_reported (opt : aob_scan_options_t) (hreadable : mem.Readable regions) (hsteady : exec.Steady mem)
    (hroom : (regions.map scan_region_t.size).sum ≤ opt.result_cap) {reg : scan_region_t} (hreg : reg ∈ regions)
    (hchunk : p.size ≤ opt.chunk) (hlong : opt.chunk < reg.base + reg.size - opt.round_up reg.base)
    (hmatch : p.MatchesAt mem (opt.round_up reg.base + (opt.chunk - (p.size - 1))))
    (hscan : aob_scan exec regions p opt = some res) :
    opt.round_up reg.base + (opt.chunk - (p.size - 1)) ∈ res.addresses := by
  have hpos := p.size_pos
  have hround := opt.le_round_up reg.base
  have hfit : ∀ reg ∈ regions, opt.ChunksFit p (opt.round_up reg.base) (reg.base + reg.size) :=
    fun _ _ => Or.inr (Or.inr hchunk)
  have hraw : (raw_hits opt p mem regions).length ≤ (regions.map scan_region_t.size).sum := by
    refine (raw_hits_length_le hfit (fun reg => List.range' reg.base reg.size) ?_).trans_eq (by simp)
    intro reg' hreg' s hspan a ha
    obtain ⟨hb, he⟩ := aob_span_eq_some hspan
    have hlo := mem_span_hits_ge ha
    have hhi := mem_span_hits_le (hb ▸ he ▸ hfit reg' hreg') ha
    have hround' := opt.le_round_up reg'.base
    exact List.mem_range'_1.mpr ⟨by omega, by omega⟩
  obtain ⟨res', hscan', _, hmem⟩ := aob_scan_eq hsteady (aob_spans_safe hreadable hfit) (hraw.trans hroom)
  obtain rfl : res' = res := Option.some.inj (hscan'.symm.trans hscan)
  have hspan : aob_span opt p reg = some ⟨opt.round_up reg.base, reg.base + reg.size⟩ := by
    rw [aob_span, if_neg (by omega)]
    exact if_neg (by omega)
  rw [hmem, mem_raw_hits]
  refine ⟨reg, hreg, _, hspan, ?_⟩
  have hwant : min opt.chunk (reg.base + reg.size - opt.round_up reg.base) = opt.chunk := by omega
  have hback : aob_scan_options_t.step_back p opt.chunk = p.size - 1 := by
    unfold aob_scan_options_t.step_back
    omega
  rw [span_hits, if_pos (by dsimp only; omega)]
  simp only [hwant, hback]
  refine List.mem_append_right _ ?_
  rw [span_hits, if_pos (by omega)]
  refine List.mem_append_left _ ?_
  rw [mem_window_hits]
  refine ⟨le_rfl, by omega, by simp, ?_⟩
  rw [aob_match_drop_bytes_at p mem (by omega), Nat.sub_self, Nat.add_zero]
  exact hmatch

/-- Chunks shorter than the pattern never hold a match. -/
theorem short_chunks_find_nothing (opt : aob_scan_options_t) (hreadable : mem.Readable regions) (hsteady : exec.Steady mem)
    (hshort : opt.chunk < p.size) (hscan : aob_scan exec regions p opt = some res) : res.addresses = [] := by
  have hpos := p.size_pos
  rw [aob_scan, if_neg (by omega)] at hscan
  obtain ⟨outs, houts, rfl⟩ := Option.map_eq_some_iff.mp hscan
  have hempty : ∀ out ∈ outs, out.local_matches = [] := by
    intro out hout
    obtain ⟨worker, hworker⟩ := mem_of_mapM_eq_some houts hout
    refine aob_worker_short (hsteady.reads worker) (hsteady.live worker) hshort _ _ _ ?_ hworker
    intro s hs a hlo hhi
    obtain ⟨⟨s', index⟩, hmem, rfl⟩ := List.mem_map.mp hs
    obtain ⟨reg, hreg, hspan⟩ := List.mem_filterMap.mp (List.fst_mem_of_mem_zipIdx (List.mem_of_mem_filter hmem))
    obtain ⟨hb, he⟩ := aob_span_eq_some hspan
    have hround := opt.le_round_up reg.base
    exact hreadable reg hreg a (by omega) (by omega)
  have hall : outs.flatMap aob_worker_t.local_matches = [] := List.flatMap_eq_nil_iff.mpr hempty
  have hmerged := aob_result_t.foldl_merge opt.result_cap outs {} (Nat.zero_le _)
  simp [aob_finish, hmerged, hall, List.unique]

end

/-- Sixteen readable bytes, walked in chunks of four by an aligned pattern of
two: the second chunk starts at an odd address, and the match there is
reported under an alignment of two. -/
theorem aob_scan_reports_odd_address :
    let reg : scan_region_t := { base := 0x10000, size := 16, in_user_space := by decide }
    let p : aob_pattern_t := ⟨[1, 2], [0xFF, 0xFF], rfl, by decide⟩
    let opt : aob_scan_options_t := { alignment := 2, chunk_bytes := 4 }
    let mem := planted 0x10003 [1, 2]
    mem.Readable [reg] ∧ (aob_exec_t.single mem).Steady mem ∧ p.hit_count mem opt.align [reg] < opt.result_cap ∧
      ¬ ∃ res, aob_scan (aob_exec_t.single mem) [reg] p opt = some res ∧
        IsNaiveScan p mem opt.align [reg] res.addresses := by
  intro reg p opt mem
  have hreadable : mem.Readable [reg] := planted_readable _ _ _
  have hsteady : (aob_exec_t.single mem).Steady mem := aob_exec_t.single_steady mem
  have hstart : opt.round_up reg.base + (opt.chunk - (p.size - 1)) = 0x10003 := by decide
  have hmatch : p.MatchesAt mem (opt.round_up reg.base + (opt.chunk - (p.size - 1))) := by
    rw [hstart]
    exact planted_matches p 0x10003
  refine ⟨hreadable, hsteady, (hit_count_le p mem opt.align [reg]).trans_lt (by decide), ?_⟩
  rintro ⟨res, hscan, _, hmem⟩
  have hreported := second_chunk_reported opt hreadable hsteady (by decide) (List.mem_singleton_self reg)
    (by decide) (by decide) hmatch hscan
  rw [hstart] at hreported
  obtain ⟨_, _, _, hdvd, _⟩ := (hmem 0x10003).mp hreported
  exact absurd hdvd (by decide)

/-- For every memory, execution and result cap above the number of matches, the
scan of these regions equals the one-line scan exactly when every region is
walked in one chunk or in chunks that hold the pattern and whose step is a
multiple of the alignment. -/
theorem aob_scan_naive_iff (regions : List scan_region_t) (p : aob_pattern_t) (opt : aob_scan_options_t) :
    (∀ (mem : memory_t) (exec : aob_exec_t) (max_results : Nat), mem.Readable regions → exec.Steady mem →
        p.hit_count mem opt.align regions < { opt with max_results }.result_cap →
        ∃ res, aob_scan exec regions p { opt with max_results } = some res ∧
          IsNaiveScan p mem opt.align regions res.addresses) ↔
      ∀ reg ∈ regions, opt.KeepsAlignment p reg := by
  constructor
  · intro hnaive reg hreg
    have hpos := p.size_pos
    have hround := opt.le_round_up reg.base
    let max_results := 1 + (regions.map scan_region_t.size).sum
    have hcap : { opt with max_results }.result_cap = max_results :=
      if_pos (show 1 + (regions.map scan_region_t.size).sum ≠ 0 by omega)
    have hrun := fun addr => hnaive (planted addr p.bytes) (aob_exec_t.single (planted addr p.bytes)) max_results
      (planted_readable addr p.bytes regions) (aob_exec_t.single_steady _)
      (by have := hit_count_le p (planted addr p.bytes) opt.align regions; rw [hcap]; omega)
    by_contra hbad
    unfold aob_scan_options_t.KeepsAlignment at hbad
    push Not at hbad
    obtain ⟨hroom, hlong, hstep⟩ := hbad
    by_cases hchunk : p.size ≤ opt.chunk
    · -- a match at the start of the second chunk is reported although it is not aligned
      obtain ⟨res, hscan, _, hmem⟩ := hrun (opt.round_up reg.base + (opt.chunk - (p.size - 1)))
      have hreported := second_chunk_reported { opt with max_results }
        (planted_readable _ p.bytes regions) (aob_exec_t.single_steady _) (by rw [hcap]; omega) hreg hchunk hlong
        (planted_matches p _) hscan
      obtain ⟨_, _, _, hdvd, _⟩ := (hmem _).mp hreported
      exact hstep hchunk ((Nat.dvd_add_right (opt.dvd_round_up reg.base)).mp hdvd)
    · -- a match at the first aligned address is missed
      obtain ⟨res, hscan, _, hmem⟩ := hrun (opt.round_up reg.base)
      have hnone := short_chunks_find_nothing { opt with max_results }
        (planted_readable _ p.bytes regions) (aob_exec_t.single_steady _) (not_le.mp hchunk) hscan
      have hhit := (hmem (opt.round_up reg.base)).mpr
        ⟨reg, hreg, ⟨hround, hroom⟩, opt.dvd_round_up reg.base, planted_matches p _⟩
      simp [hnone] at hhit
  · intro hkeeps mem exec max_results hreadable hsteady hroom
    exact aob_scan_naive hreadable hsteady hkeeps hroom

end slop.core.memory
