import ReverseSlop.Core.Memory.Aob.Scan

namespace slop.core.memory

/-- The addresses of one window at which the pattern matches. -/
def window_hits (opt : aob_scan_options_t) (p : aob_pattern_t) (base : Nat) (buf : List UInt8)
    (last a : Nat) : List Nat :=
  if a ≤ last then
    (if aob_match p (buf.drop (a - base)) then [a] else []) ++
      window_hits opt p base buf last (a + opt.align)
  else []
termination_by last + 1 - a
decreasing_by
  have := opt.align_pos
  omega

/-- The stride visits every aligned offset of the window and nothing else. -/
theorem mem_window_hits (opt : aob_scan_options_t) (p : aob_pattern_t) (base : Nat) (buf : List UInt8)
    (last a x : Nat) :
    x ∈ window_hits opt p base buf last a ↔
      a ≤ x ∧ x ≤ last ∧ opt.align ∣ x - a ∧ aob_match p (buf.drop (x - base)) = true := by
  have hpos := opt.align_pos
  fun_induction window_hits opt p base buf last a with
  | case1 a hle ih =>
    have hhead : x ∈ (if aob_match p (buf.drop (a - base)) then [a] else []) ↔
        x = a ∧ aob_match p (buf.drop (x - base)) = true := by
      by_cases hmatch : aob_match p (buf.drop (a - base)) = true
      · simp only [hmatch, if_true, List.mem_singleton]
        exact ⟨fun h => ⟨h, h ▸ hmatch⟩, And.left⟩
      · simp only [hmatch, Bool.false_eq_true, if_false, List.not_mem_nil, false_iff, not_and]
        exact fun h => h ▸ hmatch
    simp only [List.mem_append, hhead, ih]
    constructor
    · rintro (⟨rfl, hmatch⟩ | ⟨hlo, hhi, hdvd, hmatch⟩)
      · exact ⟨le_rfl, hle, by simp, hmatch⟩
      · have hsplit : x - a = (x - (a + opt.align)) + opt.align := by omega
        exact ⟨by omega, hhi, hsplit ▸ Nat.dvd_add_self_right.mpr hdvd, hmatch⟩
    · rintro ⟨hlo, hhi, hdvd, hmatch⟩
      by_cases heq : x = a
      · exact Or.inl ⟨heq, hmatch⟩
      · have hstep : opt.align ≤ x - a := Nat.le_of_dvd (by omega) hdvd
        have hsplit : x - a = (x - (a + opt.align)) + opt.align := by omega
        rw [hsplit] at hdvd
        exact Or.inr ⟨by omega, hhi, Nat.dvd_add_self_right.mp hdvd, hmatch⟩
  | case2 a hgt =>
    simp only [List.not_mem_nil, false_iff, not_and]
    intro hlo hhi
    omega

theorem pairwise_window_hits (opt : aob_scan_options_t) (p : aob_pattern_t) (base : Nat)
    (buf : List UInt8) (last a : Nat) : (window_hits opt p base buf last a).Pairwise (· < ·) := by
  have hpos := opt.align_pos
  fun_induction window_hits opt p base buf last a with
  | case1 a hle ih =>
    refine List.pairwise_append.mpr ⟨by split <;> simp, ih, ?_⟩
    intro x hx y hy
    have hxa : x = a := by
      split at hx
      · simpa using hx
      · simp at hx
    have hya := ((mem_window_hits opt p base buf last _ y).mp hy).1
    omega
  | case2 => simp

/-- The first matches are kept, up to the cap. -/
theorem aob_worker_t.foldl_add_match (cap : Nat) (hits : List Nat) (out : aob_worker_t)
    (hcap : out.local_matches.length ≤ cap) :
    (hits.foldl (aob_worker_t.add_match cap) out).local_matches = (out.local_matches ++ hits).take cap := by
  induction hits generalizing out with
  | nil => rw [List.append_nil, List.take_of_length_le hcap, List.foldl_nil]
  | cons addr hits ih =>
    rw [List.foldl_cons]
    by_cases hroom : out.local_matches.length < cap
    · have hadd : out.add_match cap addr = { out with local_matches := out.local_matches ++ [addr] } := by
        rw [aob_worker_t.add_match, if_pos hroom]
      rw [hadd, ih _ (by rw [List.length_append, List.length_singleton]; omega), List.append_assoc, List.singleton_append]
    · have hadd : out.add_match cap addr = { out with truncated := true } := by
        rw [aob_worker_t.add_match, if_neg hroom]
      have hrest := ih { out with truncated := true } hcap
      rw [hadd, hrest, List.take_append_of_le_length (by dsimp only; omega), List.take_append_of_le_length (by omega)]

/-- A window that ends inside its buffer never leaves it. -/
theorem scan_window_eq (opt : aob_scan_options_t) (p : aob_pattern_t) (base : Nat) (buf : List UInt8)
    (last a : Nat) (out : aob_worker_t) (hlast : last ≤ base + buf.length) :
    scan_window opt p base buf last a out =
      some ((window_hits opt p base buf last a).foldl (aob_worker_t.add_match opt.result_cap) out) := by
  fun_induction window_hits opt p base buf last a generalizing out with
  | case1 a hle ih =>
    rw [scan_window, if_pos hle, if_neg (by omega), ih]
    by_cases hmatch : aob_match p (buf.drop (a - base)) = true <;> simp [hmatch]
  | case2 a hgt => rw [scan_window, if_neg hgt, List.foldl_nil]

/-- A buffer shorter than the pattern adds nothing, wherever the window ends. -/
theorem scan_window_short {opt : aob_scan_options_t} {p : aob_pattern_t} {base : Nat} {buf : List UInt8}
    {last a : Nat} {out result : aob_worker_t} (hshort : buf.length < p.size)
    (hscan : scan_window opt p base buf last a out = some result) : result = out := by
  have hnone : ∀ a, aob_match p (buf.drop (a - base)) = false := by
    intro a
    apply aob_match_short
    rw [List.length_drop]
    omega
  fun_induction scan_window opt p base buf last a out with
  | case1 => simp at hscan
  | case2 a out hle hin ih =>
    have hsame := ih hscan
    simpa [hnone a] using hsame
  | case3 => exact (Option.some.inj hscan).symm

/-- All matches of a span, chunk after chunk. -/
def span_hits (opt : aob_scan_options_t) (p : aob_pattern_t) (mem : memory_t) (e cursor : Nat) : List Nat :=
  if cursor + p.size ≤ e then
    let want := min opt.chunk (e - cursor)
    window_hits opt p cursor (mem.bytes_at cursor want) (cursor + want - p.size) cursor ++
      span_hits opt p mem e (cursor + (want - aob_scan_options_t.step_back p want))
  else []
termination_by e - cursor
decreasing_by
  have := p.size_pos
  have := opt.chunk_pos
  simp only [aob_scan_options_t.step_back]
  omega

/-- The rest of a span can be walked without a chunk shorter than the pattern. -/
def aob_scan_options_t.ChunksFit (opt : aob_scan_options_t) (p : aob_pattern_t) (cursor e : Nat) : Prop :=
  e < cursor + p.size ∨ e - cursor ≤ opt.chunk ∨ p.size ≤ opt.chunk

section

variable {opt : aob_scan_options_t} {p : aob_pattern_t} {mem : memory_t}

theorem aob_scan_options_t.ChunksFit.want_ge {cursor e : Nat} (hfit : opt.ChunksFit p cursor e)
    (hmore : cursor + p.size ≤ e) : p.size ≤ min opt.chunk (e - cursor) := by
  unfold aob_scan_options_t.ChunksFit at hfit
  omega

theorem aob_scan_options_t.ChunksFit.next {cursor e : Nat} (hfit : opt.ChunksFit p cursor e)
    (hmore : cursor + p.size ≤ e) :
    opt.ChunksFit p (cursor + (min opt.chunk (e - cursor) -
      aob_scan_options_t.step_back p (min opt.chunk (e - cursor)))) e := by
  have hpos := p.size_pos
  have hwant := hfit.want_ge hmore
  unfold aob_scan_options_t.ChunksFit aob_scan_options_t.step_back at *
  omega

theorem mem_span_hits_ge {e cursor x : Nat} (hx : x ∈ span_hits opt p mem e cursor) : cursor ≤ x := by
  fun_induction span_hits opt p mem e cursor with
  | case1 cursor hmore want ih =>
    rcases List.mem_append.mp hx with hx | hx
    · exact ((mem_window_hits opt p _ _ _ _ x).mp hx).1
    · exact (Nat.le_add_right _ _).trans (ih hx)
  | case2 => simp at hx

/-- No address is visited twice: the step back ends right after the last
address of the window before. -/
theorem pairwise_span_hits {e cursor : Nat} (hfit : opt.ChunksFit p cursor e) :
    (span_hits opt p mem e cursor).Pairwise (· < ·) := by
  fun_induction span_hits opt p mem e cursor with
  | case1 cursor hmore want ih =>
    have hpos := p.size_pos
    have hwant : p.size ≤ want := hfit.want_ge hmore
    refine List.pairwise_append.mpr ⟨pairwise_window_hits opt p _ _ _ _, ih (hfit.next hmore), ?_⟩
    intro x hx y hy
    have hxlast := ((mem_window_hits opt p _ _ _ _ x).mp hx).2.1
    have hynext := mem_span_hits_ge hy
    unfold aob_scan_options_t.step_back at hynext
    omega
  | case2 => exact .nil

/-- When the chunk step keeps the alignment, the walk sees exactly the aligned
matches of the span. -/
theorem mem_span_hits_aligned {e cursor : Nat} (hcursor : opt.align ∣ cursor)
    (hstep : e < cursor + p.size ∨ e - cursor ≤ opt.chunk ∨
      (p.size ≤ opt.chunk ∧ opt.align ∣ opt.chunk - (p.size - 1))) (x : Nat) :
    x ∈ span_hits opt p mem e cursor ↔
      cursor ≤ x ∧ x + p.size ≤ e ∧ opt.align ∣ x ∧ p.MatchesAt mem x := by
  fun_induction span_hits opt p mem e cursor with
  | case1 cursor hmore want ih =>
    have hpos := p.size_pos
    have hwant : p.size ≤ want := by omega
    have hback : aob_scan_options_t.step_back p want = p.size - 1 := by
      unfold aob_scan_options_t.step_back
      omega
    have hwindow : x ∈ window_hits opt p cursor (mem.bytes_at cursor want) (cursor + want - p.size) cursor ↔
        cursor ≤ x ∧ x ≤ cursor + want - p.size ∧ opt.align ∣ x ∧ p.MatchesAt mem x := by
      rw [mem_window_hits]
      constructor
      · rintro ⟨hlo, hhi, hdvd, hmatch⟩
        rw [aob_match_drop_bytes_at p mem (by omega), Nat.add_sub_cancel' hlo] at hmatch
        exact ⟨hlo, hhi, (Nat.dvd_sub_iff_left hlo hcursor).mp hdvd, hmatch⟩
      · rintro ⟨hlo, hhi, hdvd, hmatch⟩
        rw [aob_match_drop_bytes_at p mem (by omega), Nat.add_sub_cancel' hlo]
        exact ⟨hlo, hhi, Nat.dvd_sub hdvd hcursor, hmatch⟩
    rw [List.mem_append, hwindow, hback]
    by_cases hlast : e - cursor ≤ opt.chunk
    · -- the chunk reaches the end of the span, nothing is left to walk
      have hend : span_hits opt p mem e (cursor + (want - (p.size - 1))) = [] := by
        rw [span_hits, if_neg (by omega)]
      rw [hend]
      simp only [List.not_mem_nil, or_false]
      have hiff : x ≤ cursor + want - p.size ↔ x + p.size ≤ e := by omega
      rw [hiff]
    · have hfull : want = opt.chunk := by omega
      obtain ⟨hchunk, hdvd⟩ : p.size ≤ opt.chunk ∧ opt.align ∣ opt.chunk - (p.size - 1) := by
        rcases hstep with h | h | h
        · omega
        · exact absurd h hlast
        · exact h
      have hnext : opt.align ∣ cursor + (want - aob_scan_options_t.step_back p want) := by
        rw [hback, hfull]
        exact Nat.dvd_add hcursor hdvd
      have hrest := ih hnext (Or.inr (Or.inr ⟨hchunk, hdvd⟩))
      rw [hback] at hrest
      rw [hrest]
      constructor
      · rintro (⟨hlo, hhi, hmatch⟩ | ⟨hlo, hhi, hmatch⟩)
        · exact ⟨hlo, by omega, hmatch⟩
        · exact ⟨by omega, hhi, hmatch⟩
      · rintro ⟨hlo, hhi, hmatch⟩
        by_cases hwin : x ≤ cursor + want - p.size
        · exact Or.inl ⟨hlo, hwin, hmatch⟩
        · exact Or.inr ⟨by omega, hhi, hmatch⟩
  | case2 cursor hdone =>
    simp only [List.not_mem_nil, false_iff, not_and]
    intro hlo hhi
    omega

end

end slop.core.memory
