import ReverseSlop.Core.Memory.PointerScan.Scan

namespace slop.core.memory

/-- The qword at an address, if all of it is readable. -/
def memory_t.qword (mem : memory_t) (a : Nat) : Option Nat := (mem.read a 8).map Bytes.of_le

namespace pointer

open detail (seg_t run_t Grid resilient_read_runs resilient_read_data resilient_read_covers_iff)
open Alignment (round_up le_round_up dvd_round_up isLeast_round_up)

variable {mem : memory_t} {tok : cancel_token_t} {align n p : Nat} {run : run_t} {e : edge_t} {es : List edge_t}
  {st : sweep_t} {cs : List seg_t} {spans : List span_t} {regions : List scan_region_t} {r : reader_t}

theorem align_pos (opt : pointer_scan_options_t) : 0 < opt.align := by
  rw [pointer_scan_options_t.align]
  split
  · exact Nat.one_pos
  case isFalse hne => exact Nat.pos_of_ne_zero fun hzero => hne (UInt32.toNat_inj.mp hzero)

theorem mem_holders (halign : 0 < align) :
    p ∈ holders align run ↔ align ∣ p ∧ (⟨run.addr, run.data.length⟩ : seg_t).Covers p 8 := by
  have hle := le_round_up (n := run.addr) halign
  have hleast := (isLeast_round_up (n := run.addr) halign).2
  have hdvd : align ∣ round_up run.addr align := dvd_round_up
  generalize hfirst : round_up run.addr align = first at *
  rw [holders, hfirst, List.mem_range']
  constructor
  · rintro ⟨i, hi, rfl⟩
    split at hi
    · have hstep : align * i ≤ run.addr + run.data.length - 8 - first := by
        rw [Nat.mul_comm]
        exact (Nat.le_div_iff_mul_le halign).mp (by omega)
      exact ⟨(Nat.dvd_add_right hdvd).mpr (Nat.dvd_mul_right _ _), by dsimp only; omega, by dsimp only; omega⟩
    · omega
  · rintro ⟨hp, hlo, hhi⟩
    dsimp only at hlo hhi
    have hfp : first ≤ p := hleast ⟨hlo, hp⟩
    obtain ⟨i, hi⟩ := (Nat.dvd_sub hp hdvd)
    refine ⟨i, ?_, by omega⟩
    rw [if_pos (by omega), Nat.lt_succ_iff, Nat.le_div_iff_mul_le halign, Nat.mul_comm]
    omega

/-- The qword of a run is the one in memory. -/
theorem qword_of_run (hdata : run.data = mem.bytes_at run.addr run.data.length)
    (hreadable : (⟨run.addr, run.data.length⟩ : seg_t).Readable mem)
    (hcovers : (⟨run.addr, run.data.length⟩ : seg_t).Covers p 8) :
    mem.qword p = some (Bytes.of_le ((run.data.drop (p - run.addr)).take 8)) := by
  obtain ⟨hlo, hhi⟩ := hcovers
  dsimp only at hlo hhi
  have hread : mem.read p 8 = some (mem.bytes_at p 8) :=
    mem.read_eq_bytes_at fun a ha hb => hreadable a (by dsimp only; omega) (by dsimp only; omega)
  have hbytes : (run.data.drop (p - run.addr)).take 8 = mem.bytes_at p 8 := by
    rw [hdata, mem.drop_bytes_at (by omega), mem.take_bytes_at (by omega), Nat.add_sub_cancel' hlo]
  rw [memory_t.qword, hread, hbytes, Option.map_some]

/-- The holder is aligned and in user space, and the qword there is the value. -/
structure Holds (mem : memory_t) (align : Nat) (e : edge_t) : Prop where
  aligned : align ∣ e.holder
  in_space : e.holder + 8 ≤ user_space_end
  qword : mem.qword e.holder = some e.value
  not_null : e.value ≠ 0

theorem mem_run_edges (halign : 0 < align) (hspace : run.addr + run.data.length ≤ user_space_end)
    (hdata : run.data = mem.bytes_at run.addr run.data.length)
    (hreadable : (⟨run.addr, run.data.length⟩ : seg_t).Readable mem) :
    e ∈ run_edges align run ↔ Holds mem align e ∧ (⟨run.addr, run.data.length⟩ : seg_t).Covers e.holder 8 := by
  rw [run_edges, List.mem_filterMap]
  constructor
  · rintro ⟨p, hp, he⟩
    obtain ⟨hdvd, hcovers⟩ := (mem_holders halign).mp hp
    dsimp only at he
    split at he
    case isTrue hne =>
      obtain rfl := Option.some.inj he
      exact ⟨⟨hdvd, hcovers.2.trans hspace, qword_of_run hdata hreadable hcovers, hne⟩, hcovers⟩
    · cases he
  · rintro ⟨⟨hdvd, -, hqword, hne⟩, hcovers⟩
    refine ⟨e.holder, (mem_holders halign).mpr ⟨hdvd, hcovers⟩, ?_⟩
    rw [qword_of_run hdata hreadable hcovers] at hqword
    have hvalue := Option.some.inj hqword
    rw [hvalue]
    exact if_pos hne

theorem mem_push_edges (he : e ∈ (push_edges es st).edges) : e ∈ es ∨ e ∈ st.edges := by
  induction es generalizing st with
  | nil => exact Or.inr he
  | cons e' es ih =>
    rw [push_edges] at he
    have hcons : e ∈ e' :: st.edges → e ∈ e' :: es ∨ e ∈ st.edges := by
      intro he
      rcases List.mem_cons.mp he with rfl | he
      · exact Or.inl List.mem_cons_self
      · exact Or.inr he
    dsimp only at he
    split at he
    · exact hcons he
    · rcases ih he with he | he
      · exact Or.inl (List.mem_cons_of_mem _ he)
      · exact hcons he

/-- Unless there are too many, all the edges are kept. -/
theorem push_edges_keeps (hroom : (push_edges es st).stats.truncated = false) :
    st.stats.truncated = false ∧ ∀ e, e ∈ es ∨ e ∈ st.edges → e ∈ (push_edges es st).edges := by
  induction es generalizing st with
  | nil => exact ⟨hroom, fun e he => he.resolve_left List.not_mem_nil⟩
  | cons e' es ih =>
    rw [push_edges] at hroom ⊢
    dsimp only at hroom ⊢
    split at hroom
    · cases hroom
    case isFalse hle =>
      rw [if_neg hle]
      obtain ⟨htrunc, hkeeps⟩ := ih hroom
      refine ⟨htrunc, fun e he => hkeeps e ?_⟩
      rcases he with he | he
      · rcases List.mem_cons.mp he with rfl | he
        · exact Or.inr List.mem_cons_self
        · exact Or.inl he
      · exact Or.inr (List.mem_cons_of_mem _ he)

theorem mem_push_runs {runs : List run_t} (he : e ∈ (push_runs align runs st).edges) :
    (∃ run ∈ runs, e ∈ run_edges align run) ∨ e ∈ st.edges := by
  induction runs generalizing st with
  | nil => exact Or.inr he
  | cons run runs ih =>
    rcases ih he with ⟨run', hrun, he⟩ | he
    · exact Or.inl ⟨run', List.mem_cons_of_mem _ hrun, he⟩
    · exact (mem_push_edges he).imp_left fun he => ⟨run, List.mem_cons_self, he⟩

theorem push_runs_keeps {runs : List run_t} (hroom : (push_runs align runs st).stats.truncated = false) :
    st.stats.truncated = false ∧
      ∀ e, (∃ run ∈ runs, e ∈ run_edges align run) ∨ e ∈ st.edges → e ∈ (push_runs align runs st).edges := by
  induction runs generalizing st with
  | nil => exact ⟨hroom, fun e he => he.resolve_left (by simp)⟩
  | cons run runs ih =>
    obtain ⟨hmid, hlater⟩ := ih hroom
    obtain ⟨hbefore, hfirst⟩ := push_edges_keeps hmid
    refine ⟨hbefore, fun e he => ?_⟩
    rcases he with ⟨run', hrun, he⟩ | he
    · rcases List.mem_cons.mp hrun with rfl | hrun
      · exact hlater e (Or.inr (hfirst e (Or.inl he)))
      · exact hlater e (Or.inl ⟨run', hrun, he⟩)
    · exact hlater e (Or.inr (hfirst e (Or.inr he)))

/-- A chunk has a readable segment with all of the qword. -/
def ChunkCovers (mem : memory_t) (c : seg_t) (p : Nat) : Prop := ∃ t, Grid 8 c t ∧ t.Readable mem ∧ t.Covers p 8

/-- The edges of the runs of a chunk. -/
theorem chunk_edges {c : seg_t} (halign : 0 < align) (hspace : c.addr + c.len ≤ user_space_end)
    (hrun : run ∈ (detail.resilient_read mem.reader tok c.addr c.len 8 n).1) :
    e ∈ run_edges align run ↔ Holds mem align e ∧ (⟨run.addr, run.data.length⟩ : seg_t).Covers e.holder 8 := by
  obtain ⟨hdata, hreadable⟩ := resilient_read_data hrun
  obtain ⟨-, hend, -⟩ := resilient_read_runs _ _ _ _ _ _ run hrun
  exact mem_run_edges halign (hend.trans hspace) hdata hreadable

theorem sweep_chunks_sound (halign : 0 < align) (hspace : ∀ c ∈ cs, c.addr + c.len ≤ user_space_end) (hst : ∀ e ∈ st.edges, Holds mem align e) :
    ∀ e ∈ (sweep_chunks mem.reader tok align cs n st).1.edges, Holds mem align e := by
  induction cs generalizing n st with
  | nil => exact hst
  | cons c cs ih =>
    rw [sweep_chunks]
    split
    · exact hst
    split
    · exact hst
    · obtain ⟨hc, hspace⟩ := List.forall_mem_cons.mp hspace
      refine ih hspace fun e he => ?_
      rcases mem_push_runs he with ⟨run, hrun, he⟩ | he
      · exact ((chunk_edges halign hc hrun).mp he).1
      · exact hst e he

theorem mem_chunks {s : span_t} {c : seg_t} (hc : c ∈ chunks s) :
    s.start ≤ c.addr ∧ c.addr < s.stop ∧ c.addr + c.len ≤ s.stop := by
  obtain ⟨k, hk, rfl⟩ := List.mem_map.mp hc
  have hchunk : kChunk = 1048576 := rfl
  have hmul := Nat.div_mul_le_self (s.stop - s.start + kChunk - 1) kChunk
  have hk := Nat.mul_le_mul_right kChunk (List.mem_range.mp hk)
  have hsucc : k.succ * kChunk = k * kChunk + kChunk := Nat.succ_mul k kChunk
  dsimp only
  generalize k * kChunk = m at *
  omega

theorem sweep_spans_sound (halign : 0 < align) (hspace : ∀ s ∈ spans, s.stop ≤ user_space_end) (hst : ∀ e ∈ st.edges, Holds mem align e) :
    ∀ e ∈ (sweep_spans mem.reader tok align spans n st).1.edges, Holds mem align e := by
  induction spans generalizing n st with
  | nil => exact hst
  | cons s spans ih =>
    rw [sweep_spans]
    split
    · exact hst
    split
    · exact hst
    · obtain ⟨hs, hspace⟩ := List.forall_mem_cons.mp hspace
      exact ih hspace (sweep_chunks_sound halign (fun c hc => (mem_chunks hc).2.2.trans hs) hst)

theorem sweep_chunks_iff (halign : 0 < align) (hspace : ∀ c ∈ cs, c.addr + c.len ≤ user_space_end) (hlive : ∀ n, tok.cancelled n = false)
    (hroom : (sweep_chunks mem.reader tok align cs n st).1.stats.truncated = false) :
    st.stats.truncated = false ∧ ∀ e, e ∈ (sweep_chunks mem.reader tok align cs n st).1.edges ↔
      e ∈ st.edges ∨ (Holds mem align e ∧ ∃ c ∈ cs, ChunkCovers mem c e.holder) := by
  induction cs generalizing n st with
  | nil => exact ⟨hroom, fun e => by simp [sweep_chunks]⟩
  | cons c cs ih =>
    obtain ⟨hc, hspace⟩ := List.forall_mem_cons.mp hspace
    have hstart : st.stats.truncated = false := by
      by_contra htrunc
      rw [sweep_chunks, if_pos (by simpa using htrunc)] at hroom
      exact htrunc hroom
    rw [sweep_chunks, if_neg (by simp [hstart]), if_neg (by simp [hlive])] at hroom ⊢
    obtain ⟨hmid, hlater⟩ := ih hspace hroom
    obtain ⟨-, hkeeps⟩ := push_runs_keeps hmid
    refine ⟨hstart, fun e => ?_⟩
    have hchunk : (∃ run ∈ (detail.resilient_read mem.reader tok c.addr c.len 8 (n + 1)).1, e ∈ run_edges align run) ↔
        Holds mem align e ∧ ChunkCovers mem c e.holder := by
      rw [ChunkCovers, ← resilient_read_covers_iff hlive (by omega) c.addr c.len (n + 1)]
      constructor
      · rintro ⟨run, hrun, he⟩
        obtain ⟨hholds, hcovers⟩ := (chunk_edges halign hc hrun).mp he
        exact ⟨hholds, run, hrun, hcovers⟩
      · rintro ⟨hholds, run, hrun, hcovers⟩
        exact ⟨run, hrun, (chunk_edges halign hc hrun).mpr ⟨hholds, hcovers⟩⟩
    have hpushed : e ∈ (push_runs align (detail.resilient_read mem.reader tok c.addr c.len 8 (n + 1)).1 st).edges ↔
        e ∈ st.edges ∨ (Holds mem align e ∧ ChunkCovers mem c e.holder) := by
      rw [← hchunk, or_comm]
      exact ⟨mem_push_runs, hkeeps e⟩
    change e ∈ (sweep_chunks mem.reader tok align cs _ (push_runs align _ st)).1.edges ↔ _
    rw [hlater, hpushed, or_assoc, ← and_or_left, List.exists_mem_cons_iff]

theorem push_edges_cancelled (es : List edge_t) (st : sweep_t) :
    (push_edges es st).stats.cancelled = st.stats.cancelled := by
  induction es generalizing st with
  | nil => rfl
  | cons e es ih =>
    rw [push_edges]
    split
    · rfl
    · exact ih _

theorem push_runs_cancelled (runs : List run_t) (st : sweep_t) :
    (push_runs align runs st).stats.cancelled = st.stats.cancelled := by
  induction runs generalizing st with
  | nil => rfl
  | cons run runs ih => exact (ih _).trans (push_edges_cancelled _ st)

theorem sweep_chunks_cancelled (hlive : ∀ n, tok.cancelled n = false) (cs : List seg_t) (n : Nat) (st : sweep_t) :
    (sweep_chunks r tok align cs n st).1.stats.cancelled = st.stats.cancelled := by
  induction cs generalizing n st with
  | nil => rfl
  | cons c cs ih =>
    rw [sweep_chunks]
    split
    · rfl
    split
    case isTrue hcancel => simp [hlive] at hcancel
    · exact (ih _ _).trans (push_runs_cancelled _ st)

theorem sweep_spans_cancelled (hlive : ∀ n, tok.cancelled n = false) (spans : List span_t) (n : Nat) (st : sweep_t) :
    (sweep_spans r tok align spans n st).1.stats.cancelled = st.stats.cancelled := by
  induction spans generalizing n st with
  | nil => rfl
  | cons s spans ih =>
    rw [sweep_spans]
    split
    · rfl
    split
    · rfl
    · exact (ih _ _).trans (sweep_chunks_cancelled hlive _ _ st)

/-- Some chunk of a span covers the qword. -/
def SpanCovers (mem : memory_t) (s : span_t) (p : Nat) : Prop := ∃ c ∈ chunks s, ChunkCovers mem c p

theorem sweep_spans_iff (halign : 0 < align) (hspace : ∀ s ∈ spans, s.stop ≤ user_space_end) (hlive : ∀ n, tok.cancelled n = false)
    (hroom : (sweep_spans mem.reader tok align spans n st).1.stats.truncated = false) :
    st.stats.truncated = false ∧ ∀ e, e ∈ (sweep_spans mem.reader tok align spans n st).1.edges ↔
      e ∈ st.edges ∨ (Holds mem align e ∧ ∃ s ∈ spans, SpanCovers mem s e.holder) := by
  induction spans generalizing n st with
  | nil => exact ⟨hroom, fun e => by simp [sweep_spans]⟩
  | cons s spans ih =>
    obtain ⟨hs, hspace⟩ := List.forall_mem_cons.mp hspace
    have hstart : st.stats.truncated = false := by
      by_contra htrunc
      rw [sweep_spans, if_pos (by simpa using htrunc)] at hroom
      exact htrunc hroom
    rw [sweep_spans, if_neg (by simp [hstart]), if_neg (by simp [hlive])] at hroom ⊢
    obtain ⟨hmid, hlater⟩ := ih hspace hroom
    obtain ⟨-, hspan⟩ := sweep_chunks_iff halign (fun c hc => (mem_chunks hc).2.2.trans hs) hlive hmid
    refine ⟨hstart, fun e => ?_⟩
    rw [hlater, hspan, or_assoc, ← and_or_left, List.exists_mem_cons_iff, SpanCovers]

theorem aligned_spans_in_space : ∀ s ∈ aligned_spans align regions, s.stop ≤ user_space_end := by
  intro s hs
  obtain ⟨reg, -, hreg⟩ := List.mem_filterMap.mp hs
  dsimp only at hreg
  split at hreg
  · cases hreg
  split at hreg
  · cases hreg
  · obtain rfl := Option.some.inj hreg
    exact reg.in_user_space

/-- The qword is in a readable part of a chunk. -/
def Covered (mem : memory_t) (opt : pointer_scan_options_t) (regions : List scan_region_t) (p : Nat) : Prop :=
  ∃ s ∈ aligned_spans opt.align regions, SpanCovers mem s p

/-- The qwords that the sweep collects. -/
def swept (mem : memory_t) (opt : pointer_scan_options_t) (regions : List scan_region_t) (tok : cancel_token_t) : sweep_t × Nat :=
  sweep_spans mem.reader tok opt.align (aligned_spans opt.align regions) 0 {}

theorem swept_sound (opt : pointer_scan_options_t) : ∀ e ∈ (swept mem opt regions tok).1.edges, Holds mem opt.align e :=
  sweep_spans_sound (align_pos opt) aligned_spans_in_space (by rintro e ⟨⟩)

theorem swept_iff {opt : pointer_scan_options_t} (hlive : ∀ n, tok.cancelled n = false)
    (hroom : (swept mem opt regions tok).1.stats.truncated = false) (e : edge_t) :
    e ∈ (swept mem opt regions tok).1.edges ↔ Holds mem opt.align e ∧ Covered mem opt regions e.holder := by
  have hswept := (sweep_spans_iff (align_pos opt) aligned_spans_in_space hlive hroom).2 e
  rw [swept, hswept]
  exact or_iff_right List.not_mem_nil

end pointer

end slop.core.memory
