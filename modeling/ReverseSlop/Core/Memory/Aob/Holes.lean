import ReverseSlop.Core.Memory.Aob.Walk
import ReverseSlop.Library.Counted

namespace slop.core.memory

open detail (seg_t run_t Grid resilient_read)

/-- The matches inside one run of readable bytes. -/
def run_matches (opt : aob_scan_options_t) (p : aob_pattern_t) (run : run_t) : List Nat :=
  if run.data.length < p.size then []
  else window_hits opt p run.addr run.data (run.addr + run.data.length - p.size) run.addr

/-- What a walk finds in a memory with holes: a chunk that does not read is searched run by run. -/
def span_seen (opt : aob_scan_options_t) (p : aob_pattern_t) (mem : memory_t) (e cursor : Nat) : List Nat :=
  if cursor + p.size ≤ e then
    let want := min opt.chunk (e - cursor)
    match mem.read cursor want with
    | none =>
      (resilient_read mem.reader idle cursor want 4096 0).1.flatMap (run_matches opt p) ++
        span_seen opt p mem e (cursor + want)
    | some buf =>
      window_hits opt p cursor buf (cursor + want - p.size) cursor ++
        span_seen opt p mem e (cursor + (want - aob_scan_options_t.step_back p want))
  else []
termination_by e - cursor
decreasing_by
  · have := p.size_pos
    have := opt.chunk_pos
    omega
  · have := p.size_pos
    have := opt.chunk_pos
    simp only [aob_scan_options_t.step_back]
    omega

/-- The chunk of the walk that is the last one to begin at or before an address. -/
def chunk_of (opt : aob_scan_options_t) (p : aob_pattern_t) (mem : memory_t) (e cursor a : Nat) : Option seg_t :=
  if cursor + p.size ≤ e then
    let want := min opt.chunk (e - cursor)
    let step := if (mem.read cursor want).isSome then want - aob_scan_options_t.step_back p want else want
    if a < cursor + step then some ⟨cursor, want⟩ else chunk_of opt p mem e (cursor + step) a
  else none
termination_by e - cursor
decreasing_by
  have := p.size_pos
  have := opt.chunk_pos
  simp only [aob_scan_options_t.step_back]
  split <;> omega

/-- The chunk that a match begins in, or a readable segment of its bisection, has all of the match. -/
def Served (opt : aob_scan_options_t) (p : aob_pattern_t) (mem : memory_t) (reg : scan_region_t) (a : Nat) : Prop :=
  ∃ c ∈ chunk_of opt p mem (reg.base + reg.size) (opt.round_up reg.base) a, ∃ t,
    Grid 4096 c t ∧ t.Readable mem ∧ t.Covers a p.size

section

variable {opt : aob_scan_options_t} {p : aob_pattern_t} {mem : memory_t} {r : reader_t} {tok : cancel_token_t}
  {e cursor a : Nat}

private theorem foldlM_scan_run_sink (opt : aob_scan_options_t) (p : aob_pattern_t) (runs : List run_t) (out : aob_worker_t)
    (hcap : out.local_matches.length ≤ opt.result_cap) :
    ∃ result, runs.foldlM (scan_run_sink opt p) out = some result ∧
      result.local_matches = (out.local_matches ++ runs.flatMap (run_matches opt p)).take opt.result_cap := by
  induction runs generalizing out with
  | nil =>
    refine ⟨out, rfl, ?_⟩
    rw [List.flatMap_nil, List.append_nil, List.take_of_length_le hcap]
  | cons run runs ih =>
    have hstep : ∃ mid, scan_run_sink opt p out run = some mid ∧
        mid.local_matches = (out.local_matches ++ run_matches opt p run).take opt.result_cap := by
      unfold scan_run_sink run_matches
      dsimp only
      split
      · refine ⟨_, rfl, ?_⟩
        rw [List.append_nil, List.take_of_length_le hcap]
        rfl
      · refine ⟨_, scan_window_eq opt p run.addr run.data _ _ _ (by omega), ?_⟩
        exact aob_worker_t.foldl_add_match opt.result_cap _ (out.add_bytes run.data.length) hcap
    obtain ⟨mid, hmid, hmatches⟩ := hstep
    obtain ⟨result, hrun, hresult⟩ := ih mid (hmatches ▸ List.length_take_le _ _)
    refine ⟨result, ?_, ?_⟩
    · rw [List.foldlM_cons, hmid]
      exact hrun
    · rw [hresult, hmatches, Capped.take_append_left, List.flatMap_cons, List.append_assoc]

private theorem aob_scan_options_t.ChunksFit.skip (hfit : opt.ChunksFit p cursor e) :
    opt.ChunksFit p (cursor + min opt.chunk (e - cursor)) e := by
  have hpos := p.size_pos
  unfold aob_scan_options_t.ChunksFit at *
  omega

theorem walk_span_seen (hreads : ∀ n addr len, r.read n addr len = mem.read addr len)
    (hlive : ∀ n, tok.cancelled n = false) {s : span_t} (hspace : s.e ≤ user_space_end) (cursor n : Nat)
    (out : aob_worker_t) (hfit : opt.ChunksFit p cursor s.e) (hcap : out.local_matches.length ≤ opt.result_cap) :
    ∃ result next, walk_span opt p r tok s cursor n out = some (result, next) ∧
      result.local_matches = (out.local_matches ++ span_seen opt p mem s.e cursor).take opt.result_cap := by
  fun_induction span_seen opt p mem s.e cursor generalizing n out with
  | case1 cursor hmore want hread ih =>
    have hsame : detail.SameAnswers r mem.reader := fun n n' addr len => hreads n addr len
    have hruns := detail.resilient_read_same hsame hlive idle_live cursor want 4096 (n + 1) 0
    obtain ⟨mid, hmid, hmatches⟩ := foldlM_scan_run_sink opt p
      (resilient_read mem.reader idle cursor want 4096 0).1 out hcap
    obtain ⟨result, next, hwalk, hresult⟩ := ih (resilient_read r tok cursor want 4096 (n + 1)).2 mid hfit.skip
      (hmatches ▸ List.length_take_le _ _)
    refine ⟨result, next, ?_, ?_⟩
    · rw [walk_span, if_pos hmore, hlive, if_neg Bool.false_ne_true]
      dsimp only
      rw [hreads, hread]
      dsimp only
      rw [hruns, hmid]
      exact hwalk
    · rw [hresult, hmatches, Capped.take_append_left, List.append_assoc]
  | case2 cursor hmore want buf hread ih =>
    have hpos := p.size_pos
    have hwant : p.size ≤ want := hfit.want_ge hmore
    have hword : user_space_end < 2 ^ 64 := by decide
    have hlen := mem.read_length hread
    have hlast : Word.sub64 (cursor + want) p.size = cursor + want - p.size :=
      Word.sub64_eq_sub (by omega) (by omega)
    have hhits := aob_worker_t.foldl_add_match opt.result_cap (window_hits opt p cursor buf (cursor + want - p.size) cursor)
      (out.add_bytes want) hcap
    obtain ⟨result, next, hwalk, hresult⟩ := ih (n + 1)
      ((window_hits opt p cursor buf (cursor + want - p.size) cursor).foldl (aob_worker_t.add_match opt.result_cap)
        (out.add_bytes want)) (hfit.next hmore) (hhits ▸ List.length_take_le _ _)
    refine ⟨result, next, ?_, ?_⟩
    · rw [walk_span, if_pos hmore, hlive, if_neg Bool.false_ne_true]
      dsimp only
      rw [hreads, hread]
      dsimp only
      rw [hlast, scan_window_eq _ _ _ _ _ _ _ (by omega)]
      exact hwalk
    · rw [hresult, hhits, Capped.take_append_left, List.append_assoc]
      rfl
  | case3 cursor hdone =>
    refine ⟨out, n, ?_, ?_⟩
    · rw [walk_span, if_neg hdone]
    · rw [List.append_nil, List.take_of_length_le hcap]

/-- Without holes the walk sees the matches of the span. -/
theorem span_seen_eq (hreadable : ∀ a, cursor ≤ a → a < e → (mem a).isSome) :
    span_seen opt p mem e cursor = span_hits opt p mem e cursor := by
  have hpos := p.size_pos
  fun_induction span_seen opt p mem e cursor with
  | case1 cursor hmore want hread ih =>
    rw [mem.read_eq_bytes_at fun a hlo hhi => hreadable a hlo (by omega)] at hread
    cases hread
  | case2 cursor hmore want buf hread ih =>
    rw [mem.read_eq_bytes_at fun a hlo hhi => hreadable a hlo (by omega)] at hread
    cases hread
    rw [ih fun a hlo hhi => hreadable a (by omega) hhi]
    conv_rhs => rw [span_hits, if_pos hmore]
  | case3 cursor hdone => rw [span_hits, if_neg hdone]

private theorem mem_window_matches (halign : opt.align = 1) {base len x : Nat} (hlen : p.size ≤ len) :
    x ∈ window_hits opt p base (mem.bytes_at base len) (base + len - p.size) base ↔
      (⟨base, len⟩ : seg_t).Covers x p.size ∧ p.MatchesAt mem x := by
  rw [mem_window_hits, halign]
  unfold seg_t.Covers
  constructor
  · rintro ⟨hlo, hhi, -, hmatch⟩
    rw [aob_match_drop_bytes_at p mem (by omega), Nat.add_sub_cancel' hlo] at hmatch
    exact ⟨⟨hlo, by dsimp only; omega⟩, hmatch⟩
  · rintro ⟨⟨hlo, hhi⟩, hmatch⟩
    dsimp only at hlo hhi
    rw [aob_match_drop_bytes_at p mem (by omega), Nat.add_sub_cancel' hlo]
    exact ⟨hlo, by omega, Nat.one_dvd _, hmatch⟩

/-- A match in a chunk that did not read is found exactly if a readable segment has it. -/
theorem mem_flatMap_run_matches (halign : opt.align = 1) {addr len x : Nat} :
    x ∈ (resilient_read mem.reader idle addr len 4096 0).1.flatMap (run_matches opt p) ↔
      p.MatchesAt mem x ∧ ∃ t, Grid 4096 ⟨addr, len⟩ t ∧ t.Readable mem ∧ t.Covers x p.size := by
  have hrun : ∀ run ∈ (resilient_read mem.reader idle addr len 4096 0).1,
      x ∈ run_matches opt p run ↔ p.MatchesAt mem x ∧ (⟨run.addr, run.data.length⟩ : seg_t).Covers x p.size := by
    intro run hrun
    rw [run_matches]
    split
    · rename_i hshort
      refine iff_of_false List.not_mem_nil ?_
      rintro ⟨-, hlo, hhi⟩
      dsimp only at hlo hhi
      omega
    · rename_i hlong
      conv_lhs => rw [(detail.resilient_read_data hrun).1]
      rw [memory_t.length_bytes_at, mem_window_matches halign (by omega), and_comm]
  rw [← detail.resilient_read_covers_iff idle_live (by decide) addr len 0, List.mem_flatMap]
  constructor
  · rintro ⟨run, hmem, hx⟩
    obtain ⟨hmatch, hcovers⟩ := (hrun run hmem).mp hx
    exact ⟨hmatch, run, hmem, hcovers⟩
  · rintro ⟨hmatch, run, hmem, hcovers⟩
    exact ⟨run, hmem, (hrun run hmem).mpr ⟨hmatch, hcovers⟩⟩

/-- The walk sees the matches that are served, and no others. -/
theorem mem_span_seen (halign : opt.align = 1) (hfit : opt.ChunksFit p cursor e) {x : Nat} :
    x ∈ span_seen opt p mem e cursor ↔
      cursor ≤ x ∧ x + p.size ≤ e ∧ p.MatchesAt mem x ∧
        ∃ c ∈ chunk_of opt p mem e cursor x, ∃ t, Grid 4096 c t ∧ t.Readable mem ∧ t.Covers x p.size := by
  have hpos := p.size_pos
  fun_induction span_seen opt p mem e cursor with
  | case1 cursor hmore want hread ih =>
    have hrest : x ∈ span_seen opt p mem e (cursor + want) ↔ _ := ih hfit.skip
    have hchunk : chunk_of opt p mem e cursor x =
        if x < cursor + want then some ⟨cursor, want⟩ else chunk_of opt p mem e (cursor + want) x := by
      rw [chunk_of, if_pos hmore]
      simp only [want] at hread ⊢
      rw [hread]
      rfl
    rw [List.mem_append, mem_flatMap_run_matches halign, hrest, hchunk]
    by_cases hx : x < cursor + want
    · rw [if_pos hx]
      constructor
      · rintro (⟨hmatch, t, hgrid, hreadable, hcovers⟩ | ⟨hlo, -⟩)
        · obtain ⟨hlo, hhi⟩ := hgrid.covers hcovers
          dsimp only at hlo hhi
          exact ⟨hlo, by omega, hmatch, _, rfl, t, hgrid, hreadable, hcovers⟩
        · omega
      · rintro ⟨-, -, hmatch, c, hc, hserved⟩
        cases hc
        exact .inl ⟨hmatch, hserved⟩
    · rw [if_neg hx]
      constructor
      · rintro (⟨-, t, hgrid, -, hcovers⟩ | ⟨hlo, hmatch⟩)
        · obtain ⟨hlo, hhi⟩ := hgrid.covers hcovers
          dsimp only at hlo hhi
          omega
        · exact ⟨by omega, hmatch⟩
      · rintro ⟨hlo, hmatch⟩
        exact .inr ⟨by omega, hmatch⟩
  | case2 cursor hmore want buf hread ih =>
    have hwant : p.size ≤ want := hfit.want_ge hmore
    have hrest : x ∈ span_seen opt p mem e (cursor + (want - aob_scan_options_t.step_back p want)) ↔ _ := ih (hfit.next hmore)
    have hchunk : chunk_of opt p mem e cursor x =
        if x < cursor + (want - aob_scan_options_t.step_back p want) then some ⟨cursor, want⟩
        else chunk_of opt p mem e (cursor + (want - aob_scan_options_t.step_back p want)) x := by
      rw [chunk_of, if_pos hmore]
      simp only [want] at hread ⊢
      rw [hread]
      rfl
    obtain ⟨hreadable, hbuf⟩ := (detail.read_eq_some_iff mem cursor want).mp hread
    have hstep : want - aob_scan_options_t.step_back p want = want - p.size + 1 := by
      unfold aob_scan_options_t.step_back
      omega
    rw [hbuf, List.mem_append, mem_window_matches halign hwant, hrest, hchunk, hstep]
    by_cases hx : x < cursor + (want - p.size + 1)
    · rw [if_pos hx]
      constructor
      · rintro (⟨hcovers, hmatch⟩ | ⟨hlo, -⟩)
        · obtain ⟨hlo, hhi⟩ := id hcovers
          dsimp only at hlo hhi
          exact ⟨hlo, by omega, hmatch, _, rfl, _, .whole, hreadable, hcovers⟩
        · omega
      · rintro ⟨hlo, -, hmatch, -⟩
        exact .inl ⟨⟨hlo, by dsimp only; omega⟩, hmatch⟩
    · rw [if_neg hx]
      constructor
      · rintro (⟨⟨hlo, hhi⟩, -⟩ | ⟨hlo, hmatch⟩)
        · dsimp only at hlo hhi
          omega
        · exact ⟨by omega, hmatch⟩
      · rintro ⟨hlo, hmatch⟩
        exact .inr ⟨by omega, hmatch⟩
  | case3 cursor hdone =>
    refine iff_of_false List.not_mem_nil ?_
    rintro ⟨hlo, hhi, -⟩
    omega

private theorem nodup_window_hits (opt : aob_scan_options_t) (p : aob_pattern_t) (base : Nat) (buf : List UInt8) (last a : Nat) :
    (window_hits opt p base buf last a).Nodup :=
  (pairwise_window_hits opt p base buf last a).imp fun h => h.ne

private theorem run_matches_subperm (run : run_t) : (run_matches opt p run).Subperm run.addresses := by
  have hpos := p.size_pos
  rw [run_matches]
  split
  · exact List.nil_subperm
  · refine (nodup_window_hits opt p _ _ _ _).subperm fun a ha => ?_
    obtain ⟨hlo, hhi, -⟩ := (mem_window_hits opt p _ _ _ _ a).mp ha
    exact List.mem_range'_1.mpr ⟨hlo, by omega⟩

private theorem nodup_flatMap_run_matches (addr len n : Nat) :
    ((resilient_read r tok addr len 4096 n).1.flatMap (run_matches opt p)).Nodup := by
  have hsub : ∀ runs : List run_t, (runs.flatMap (run_matches opt p)).Subperm (runs.flatMap run_t.addresses) := by
    intro runs
    induction runs with
    | nil => exact List.nil_subperm
    | cons run runs ih => exact (run_matches_subperm run).append ih
  have hall := (hsub _).trans (detail.resilient_read_addresses r tok addr len 4096 n)
  obtain ⟨l, hperm, hsublist⟩ := hall
  exact hperm.nodup_iff.mp (hsublist.nodup List.nodup_range')

/-- No match is seen twice on one walk. -/
theorem nodup_span_seen (halign : opt.align = 1) (hfit : opt.ChunksFit p cursor e) : (span_seen opt p mem e cursor).Nodup := by
  have hpos := p.size_pos
  fun_induction span_seen opt p mem e cursor with
  | case1 cursor hmore want hread ih =>
    refine (nodup_flatMap_run_matches _ _ _).append (ih hfit.skip) fun x hx hx' => ?_
    obtain ⟨-, t, hgrid, -, hcovers⟩ := (mem_flatMap_run_matches halign).mp hx
    have hhi := (hgrid.covers hcovers).2
    have hlo := ((mem_span_seen halign hfit.skip).mp hx').1
    dsimp only at hhi
    omega
  | case2 cursor hmore want buf hread ih =>
    have hwant : p.size ≤ want := hfit.want_ge hmore
    refine (nodup_window_hits opt p _ _ _ _).append (ih (hfit.next hmore)) fun x hx hx' => ?_
    have hhi := ((mem_window_hits opt p _ _ _ _ x).mp hx).2.1
    have hlo := ((mem_span_seen halign (hfit.next hmore)).mp hx').1
    unfold aob_scan_options_t.step_back at hlo
    omega
  | case3 => exact .nil

end

end slop.core.memory
