import Mathlib.Tactic.Ring
import ReverseSlop.Core.Memory.Reader
import ReverseSlop.Library.Bytes
import ReverseSlop.Library.Spans

namespace slop.core.memory.snapshot

structure region_snapshot_t where
  base : UInt64 := 0
  size : Nat := 0
  bytes : List UInt8 := []
  complete : Bool := false

structure snapshot_span_t where
  offset : Nat
  length : Nat
  deriving DecidableEq

structure snapshot_diff_t where
  changed : List snapshot_span_t := []
  valid : Bool := false

/-- A reader that may have put some bytes into the buffer when it fails. -/
structure buffer_reader_t extends reader_t where
  left : Nat → Nat → Nat → List UInt8
  left_length : ∀ n addr len, (left n addr len).length ≤ len

/-- A part of the region still to be read. -/
structure seg_t where
  off : Nat
  len : Nat
  pos : 0 < len

/-- What the loops change: the buffer, and why the snapshot is not complete. -/
structure fill_t where
  bytes : List UInt8
  holes : Bool := false
  cancelled : Bool := false

def fill_t.put (t : fill_t) (off : Nat) (data : List UInt8) : fill_t := { t with bytes := Bytes.overwrite t.bytes off data }

def at_offset (base : UInt64) (off : Nat) : UInt64 := base + off.toUInt64

/-- Each split lowers this weight of the stack. -/
def stack_weight (stack : List seg_t) : Nat := (stack.map fun s => 2 * s.len - 1).sum

/-- The bisection from poll number `n` on. The high half is pushed last, so it is read first. -/
def bisect (r : buffer_reader_t) (tok : cancel_token_t) (base : UInt64) (n : Nat) : List seg_t → fill_t → fill_t × Nat
  | [], t => (t, n)
  | s :: stack, t =>
    if tok.cancelled n then ({ t with cancelled := true }, n + 1)
    else
      match r.read n (at_offset base s.off).toNat s.len with
      | some data => bisect r tok base (n + 1) stack (t.put s.off data)
      | none =>
        let t := t.put s.off (r.left n (at_offset base s.off).toNat s.len)
        if h : s.len = 1 then bisect r tok base (n + 1) stack { t with holes := true }
        else
          let half := s.len / 2
          bisect r tok base (n + 1)
            (⟨s.off + half, s.len - half, by have := s.pos; omega⟩ :: ⟨s.off, half, by have := s.pos; omega⟩ :: stack) t
termination_by stack => stack_weight stack
decreasing_by
  all_goals
    have hpos := s.pos
    simp only [stack_weight, List.map_cons, List.sum_cons]
    omega

def kChunk : Nat := 2 ^ 20

/-- The region is read chunk by chunk, and a chunk that does not read at once is bisected. -/
def capture_loop (r : buffer_reader_t) (tok : cancel_token_t) (base : UInt64) (size : Nat) (n cursor : Nat) (t : fill_t) :
    fill_t :=
  if h : cursor < size then
    if tok.cancelled n then { t with cancelled := true }
    else
      let want := min kChunk (size - cursor)
      match r.read n (at_offset base cursor).toNat want with
      | some data => capture_loop r tok base size (n + 1) (cursor + want) (t.put cursor data)
      | none =>
        let t := t.put cursor (r.left n (at_offset base cursor).toNat want)
        let (t, n) := bisect r tok base (n + 1) [⟨cursor, want, lt_min (by decide) (by omega)⟩] t
        if t.cancelled then t else capture_loop r tok base size n (cursor + want) t
  else t
termination_by size - cursor
decreasing_by
  all_goals
    have hwant : 0 < min kChunk (size - cursor) := lt_min (by decide) (by omega)
    omega

def snapshot_capture (r : buffer_reader_t) (tok : cancel_token_t) (base size max_bytes : UInt64) : region_snapshot_t :=
  if size = 0 then { base, complete := true }
  else
    let clamped : Bool := size > max_bytes
    let size := if clamped then max_bytes.toNat else size.toNat
    let t := capture_loop r tok base size 0 0 { bytes := List.replicate size 0 }
    { base, size, bytes := t.bytes, complete := !t.cancelled && !t.holes && !clamped }

/-- The vectors have different bytes at a position. -/
def differ (a b : List UInt8) (i : Nat) : Bool := i < a.length && a.getD i 0 != b.getD i 0

theorem differ_iff {a b : List UInt8} {i : Nat} : differ a b i ↔ i < a.length ∧ a.getD i 0 ≠ b.getD i 0 := by
  rw [differ, Bool.and_eq_true, decide_eq_true_iff, bne_iff_ne]

theorem differ_iff_getElem? {a b : List UInt8} {i : Nat} (hlen : a.length = b.length) :
    (i < a.length ∧ a[i]? ≠ b[i]?) ↔ 0 ≤ i ∧ differ a b i := by
  rw [differ_iff, and_iff_right (Nat.zero_le i)]
  refine and_congr_right fun hi => not_congr ?_
  rw [List.getD_eq_getElem?_getD, List.getD_eq_getElem?_getD, List.getElem?_eq_getElem hi,
    List.getElem?_eq_getElem (hlen ▸ hi), Option.getD_some, Option.getD_some, Option.some_inj]

def run_end (a b : List UInt8) (i : Nat) : Nat :=
  if h : differ a b i then run_end a b (i + 1) else i
termination_by a.length - i
decreasing_by
  have hlt := (differ_iff.mp h).1
  omega

theorem le_run_end (a b : List UInt8) (i : Nat) : i ≤ run_end a b i := by
  induction i using run_end.induct a b with
  | case1 i h ih =>
    rw [run_end, dif_pos h]
    omega
  | case2 i h => rw [run_end, dif_neg h]

def diff_loop (max_diff_ranges : Nat) (a b : List UInt8) (i : Nat) (changed : List snapshot_span_t) : List snapshot_span_t :=
  if h : i < a.length then
    if hsame : a.getD i 0 = b.getD i 0 then diff_loop max_diff_ranges a b (i + 1) changed
    else
      let stop := run_end a b i
      let changed := changed ++ [⟨i, stop - i⟩]
      if changed.length ≥ max_diff_ranges then changed else diff_loop max_diff_ranges a b stop changed
  else changed
termination_by a.length - i
decreasing_by
  · omega
  · have hrun : run_end a b i = run_end a b (i + 1) := by
      conv_lhs => rw [run_end, dif_pos (differ_iff.mpr ⟨h, hsame⟩)]
    have hle := le_run_end a b (i + 1)
    omega

def snapshot_diff (max_diff_ranges : Nat) (a b : region_snapshot_t) : snapshot_diff_t :=
  if a.base ≠ b.base ∨ a.size ≠ b.size ∨ a.bytes.length ≠ b.bytes.length then {}
  else { valid := true, changed := diff_loop max_diff_ranges a.bytes b.bytes 0 [] }

/-- What is in memory while it is read. A read of some bytes can fail although each of them can be read. -/
structure still_reader_t extends buffer_reader_t where
  mem : UInt64 → Option UInt8
  read_mem : ∀ {n : Nat} {addr : UInt64} {len : Nat} {bytes : List UInt8}, read n addr.toNat len = some bytes →
    ∀ j < len, mem (at_offset addr j) = bytes[j]?
  read_one : ∀ n addr, (mem addr).isSome → (read n addr.toNat 1).isSome
  left_mem : ∀ n (addr : UInt64) len, ∀ j < (left n addr.toNat len).length,
    mem (at_offset addr j) = (left n addr.toNat len)[j]?

/-- The byte of memory for a position of the buffer. -/
def still_reader_t.byte (r : still_reader_t) (base : UInt64) (i : Nat) : Option UInt8 := r.mem (at_offset base i)

def still_reader_t.Done (r : still_reader_t) (base : UInt64) (bytes : List UInt8) (i : Nat) : Prop :=
  bytes[i]? = some ((r.byte base i).getD 0)

/-- Each position has its byte of memory, or none yet. -/
def still_reader_t.Sound (r : still_reader_t) (base : UInt64) (bytes : List UInt8) : Prop :=
  ∀ i b, bytes[i]? = some b → b = 0 ∨ r.byte base i = some b

/-- What a part of the capture does that has to read the positions of a set. -/
structure Fills (r : still_reader_t) (tok : cancel_token_t) (base : UInt64) (P : Nat → Prop) (t t' : fill_t) : Prop where
  length : t'.bytes.length = t.bytes.length
  sound : r.Sound base t.bytes → r.Sound base t'.bytes
  keeps : ∀ i, r.Done base t.bytes i → r.Done base t'.bytes i
  done : t'.cancelled = false → r.Sound base t.bytes → ∀ i, P i → r.Done base t'.bytes i
  holes : t'.cancelled = false → (t'.holes ↔ t.holes ∨ ∃ i, P i ∧ r.byte base i = none)
  live : t'.cancelled = false → t.cancelled = false
  polled : t'.cancelled → t.cancelled ∨ ∃ n, tok.cancelled n

section

variable {r : still_reader_t} {tok : cancel_token_t} {base : UInt64} {P Q R : Nat → Prop} {t t' t'' : fill_t} {off : Nat}
  {data : List UInt8}

theorem at_offset_add (base : UInt64) (off j : Nat) : at_offset (at_offset base off) j = at_offset base (off + j) := by
  have hsum : (off + j).toUInt64 = off.toUInt64 + j.toUInt64 := UInt64.ofNat_add ..
  rw [at_offset, at_offset, at_offset, hsum, UInt64.add_assoc]

theorem Fills.trans (h : Fills r tok base P t t') (h' : Fills r tok base Q t' t'') (hR : ∀ i, R i ↔ P i ∨ Q i) :
    Fills r tok base R t t'' where
  length := h'.length.trans h.length
  sound hs := h'.sound (h.sound hs)
  keeps i hi := h'.keeps i (h.keeps i hi)
  done hlive hs i hi := by
    rcases (hR i).mp hi with hi | hi
    · exact h'.keeps i (h.done (h'.live hlive) hs i hi)
    · exact h'.done hlive (h.sound hs) i hi
  holes hlive := by
    rw [h'.holes hlive, h.holes (h'.live hlive), or_assoc, ← exists_or]
    simp only [hR, or_and_right]
  live hlive := h.live (h'.live hlive)
  polled hcancelled := (h'.polled hcancelled).elim h.polled .inr

/-- Bytes of memory are put where they belong. -/
theorem Fills.put (hin : off + data.length ≤ t.bytes.length) (hmem : ∀ j < data.length, r.byte base (off + j) = data[j]?) :
    Fills r tok base (fun i => off ≤ i ∧ i < off + data.length) t (t.put off data) := by
  have hinside : ∀ i, off ≤ i ∧ i < off + data.length →
      ∃ b, (t.put off data).bytes[i]? = some b ∧ r.byte base i = some b := by
    rintro i ⟨hlo, hhi⟩
    obtain ⟨j, rfl⟩ := Nat.exists_eq_add_of_le hlo
    have hj : j < data.length := by omega
    refine ⟨data[j], ?_, (hmem j hj).trans (List.getElem?_eq_getElem hj)⟩
    exact (Bytes.overwrite_inside hin hj).trans (List.getElem?_eq_getElem hj)
  have houtside : ∀ i, ¬ (off ≤ i ∧ i < off + data.length) → (t.put off data).bytes[i]? = t.bytes[i]? :=
    fun i hi => Bytes.overwrite_outside hin (by omega)
  have hdone : ∀ i, off ≤ i ∧ i < off + data.length → r.Done base (t.put off data).bytes i := by
    intro i hi
    obtain ⟨b, hput, hbyte⟩ := hinside i hi
    rw [still_reader_t.Done, hput, hbyte]
    rfl
  refine ⟨Bytes.length_overwrite hin, fun hs i b hb => ?_, fun i hi => ?_, fun _ _ => hdone, fun _ => ?_, id, .inl⟩
  · by_cases hi : off ≤ i ∧ i < off + data.length
    · obtain ⟨b', hput, hbyte⟩ := hinside i hi
      rw [hb] at hput
      exact .inr (Option.some.inj hput ▸ hbyte)
    · exact hs i b (houtside i hi ▸ hb)
  · by_cases hr : off ≤ i ∧ i < off + data.length
    · exact hdone i hr
    · rw [still_reader_t.Done, houtside i hr]
      exact hi
  · refine (or_iff_left ?_).symm
    rintro ⟨i, hi, hnone⟩
    obtain ⟨b, -, hbyte⟩ := hinside i hi
    rw [hbyte] at hnone
    cases hnone

/-- A read that fails may leave bytes of memory. -/
theorem Fills.put_left (r : still_reader_t) (tok : cancel_token_t) (base : UInt64) (n : Nat) {len : Nat}
    (hin : off + len ≤ t.bytes.length) :
    Fills r tok base (fun i => off ≤ i ∧ i < off + (r.left n (at_offset base off).toNat len).length) t
      (t.put off (r.left n (at_offset base off).toNat len)) := by
  have hlen := r.left_length n (at_offset base off).toNat len
  refine Fills.put (by omega) fun j hj => ?_
  rw [still_reader_t.byte, ← at_offset_add]
  exact r.left_mem n _ len j hj

theorem Fills.put_read {n len : Nat} (hread : r.read n (at_offset base off).toNat len = some data)
    (hin : off + len ≤ t.bytes.length) :
    Fills r tok base (fun i => off ≤ i ∧ i < off + len) t (t.put off data) := by
  have hlen := r.read_length hread
  subst hlen
  refine Fills.put hin fun j hj => ?_
  rw [still_reader_t.byte, ← at_offset_add]
  exact r.read_mem hread j hj

/-- Where nothing can be read the buffer keeps its zero. -/
theorem Fills.hole (hin : off < t.bytes.length) (hnone : r.byte base off = none) :
    Fills r tok base (fun i => i = off) t { t with holes := true } := by
  refine ⟨rfl, id, fun _ => id, fun _ hs i hi => ?_, fun _ => ?_, id, .inl⟩
  · subst hi
    have hget := List.getElem?_eq_getElem hin
    rw [still_reader_t.Done, hnone]
    rcases hs i _ hget with hzero | hbyte
    · exact hget.trans (congrArg some hzero)
    · rw [hnone] at hbyte
      cases hbyte
  · exact iff_of_true rfl (.inr ⟨off, rfl, hnone⟩)

theorem Fills.cancel (P : Nat → Prop) {n : Nat} (hcancel : tok.cancelled n) :
    Fills r tok base P t { t with cancelled := true } := by
  refine ⟨rfl, id, fun _ => id, ?_, ?_, ?_, fun _ => .inr ⟨n, hcancel⟩⟩
  · rintro ⟨⟩
  · rintro ⟨⟩
  · rintro ⟨⟩

theorem Fills.none (t : fill_t) : Fills r tok base (fun _ => False) t t :=
  ⟨rfl, id, fun _ => id, fun _ _ i hi => hi.elim, fun _ => by simp, id, .inl⟩

theorem Fills.stopped (h : Fills r tok base Q t t') (hcancelled : t'.cancelled) : Fills r tok base P t t' := by
  have hnot : ¬ t'.cancelled = false := by rw [hcancelled]; exact Bool.false_ne_true.symm
  exact ⟨h.length, h.sound, h.keeps, fun hlive => absurd hlive hnot, fun hlive => absurd hlive hnot, h.live, h.polled⟩

/-- Holes are noted exactly if some byte could not be read. -/
theorem Fills.readable_iff (h : Fills r tok base P t t') (hlive : t'.cancelled = false) (hwhole : t.holes = false) :
    t'.holes = false ↔ ∀ i, P i → (r.byte base i).isSome := by
  rw [← Bool.not_eq_true, h.holes hlive, hwhole]
  simp only [Bool.false_eq_true, false_or, not_exists, not_and, Option.isSome_iff_ne_none, ne_eq]

def seg_t.Has (s : seg_t) (i : Nat) : Prop := s.off ≤ i ∧ i < s.off + s.len

/-- The bisection reads all that is on its stack. -/
theorem bisect_fills (n : Nat) (stack : List seg_t) (t : fill_t) (hin : ∀ s ∈ stack, s.off + s.len ≤ t.bytes.length) :
    Fills r tok base (fun i => ∃ s ∈ stack, s.Has i) t (bisect r.tobuffer_reader_t tok base n stack t).1 := by
  induction n, stack, t using bisect.induct r.tobuffer_reader_t tok base with
  | case1 n t =>
    rw [bisect]
    exact (Fills.none t).trans (Fills.none t) (by simp)
  | case2 n s stack t hcancel =>
    rw [bisect, if_pos hcancel]
    exact Fills.cancel _ hcancel
  | case3 n s stack t hcancel data hread ih =>
    obtain ⟨hs, hstack⟩ := List.forall_mem_cons.mp hin
    have hput : Fills r tok base s.Has t (t.put s.off data) := Fills.put_read hread hs
    rw [bisect, if_neg hcancel]
    simp only [hread]
    exact hput.trans (ih (by rwa [hput.length])) fun i => by rw [List.exists_mem_cons_iff]
  | case4 n s stack t hcancel hread t' hone ih =>
    obtain ⟨hs, hstack⟩ := List.forall_mem_cons.mp hin
    have hput : Fills r tok base _ t t' := Fills.put_left r tok base n hs
    have hnone : r.byte base s.off = none := by
      by_contra hsome
      have hbyte := r.read_one n (at_offset base s.off) (Option.isSome_iff_ne_none.mpr hsome)
      rw [← hone, hread] at hbyte
      cases hbyte
    have hhole : Fills r tok base (fun i => i = s.off) t' { t' with holes := true } :=
      Fills.hole (by rw [hput.length]; omega) hnone
    have hrest := ih (by change ∀ s ∈ stack, s.off + s.len ≤ t'.bytes.length; rwa [hput.length])
    have hleft := r.left_length n (at_offset base s.off).toNat s.len
    rw [bisect, if_neg hcancel]
    simp only [hread]
    rw [dif_pos hone]
    refine hput.trans (hhole.trans hrest fun i => Iff.rfl) fun i => ?_
    rw [List.exists_mem_cons_iff, seg_t.Has, ← or_assoc]
    exact or_congr_left (by omega)
  | case5 n s stack t hcancel hread t' hlong half ih =>
    obtain ⟨hs, hstack⟩ := List.forall_mem_cons.mp hin
    have hput : Fills r tok base _ t t' := Fills.put_left r tok base n hs
    have hleft := r.left_length n (at_offset base s.off).toNat s.len
    have hhalf : half ≤ s.len := Nat.div_le_self _ _
    rw [bisect, if_neg hcancel]
    simp only [hread]
    rw [dif_neg hlong]
    refine hput.trans (ih ?_) fun i => ?_
    · rw [hput.length]
      exact List.forall_mem_cons.mpr ⟨by dsimp only; omega, List.forall_mem_cons.mpr ⟨by dsimp only; omega, hstack⟩⟩
    · rw [List.exists_mem_cons_iff, List.exists_mem_cons_iff, List.exists_mem_cons_iff, ← or_assoc, ← or_assoc]
      simp only [seg_t.Has]
      exact or_congr_left (by omega)

theorem Fills.chunk (r : still_reader_t) (tok : cancel_token_t) (base : UInt64) (n : Nat) {want : Nat} (hwant : 0 < want)
    (hin : off + want ≤ t.bytes.length) :
    Fills r tok base (fun i => off ≤ i ∧ i < off + want) t
      (bisect r.tobuffer_reader_t tok base (n + 1) [⟨off, want, hwant⟩]
        (t.put off (r.left n (at_offset base off).toNat want))).1 := by
  have hput := Fills.put_left r tok base n hin
  have hleft := r.left_length n (at_offset base off).toNat want
  refine hput.trans (bisect_fills (n + 1) _ _ ?_) fun i => ?_
  · rw [hput.length]
    exact List.forall_mem_singleton.mpr hin
  · simp only [List.mem_singleton, exists_eq_left, seg_t.Has]
    omega

/-- The capture reads all that is behind its cursor. -/
theorem capture_loop_fills {size : Nat} (n cursor : Nat) (t : fill_t) (hsize : t.bytes.length = size) :
    Fills r tok base (fun i => cursor ≤ i ∧ i < size) t
      (capture_loop r.tobuffer_reader_t tok base size n cursor t) := by
  induction n, cursor, t using capture_loop.induct r.tobuffer_reader_t tok base size with
  | case1 n cursor t hlt hcancel =>
    rw [capture_loop, dif_pos hlt, if_pos hcancel]
    exact Fills.cancel _ hcancel
  | case2 n cursor t hlt hcancel want data hread ih =>
    have hin : cursor + want ≤ size := by omega
    have hput : Fills r tok base _ t (t.put cursor data) := Fills.put_read hread (hsize ▸ hin)
    rw [capture_loop, dif_pos hlt, if_neg hcancel]
    simp only [want] at hread
    simp only [hread]
    exact hput.trans (ih (hput.length.trans hsize)) fun i => by omega
  | case3 n cursor t hlt hcancel want hread t₁ t₂ n' hbisect hcancelled =>
    have hin : cursor + want ≤ t.bytes.length := by omega
    have hchunk := Fills.chunk r tok base n (lt_min (by decide) (by omega)) hin
    rw [hbisect] at hchunk
    rw [capture_loop, dif_pos hlt, if_neg hcancel]
    simp only [want, t₁] at hread hbisect
    simp only [hread, hbisect, hcancelled, if_true]
    exact hchunk.stopped hcancelled
  | case4 n cursor t hlt hcancel want hread t₁ t₂ n' hbisect hcancelled ih =>
    have hin : cursor + want ≤ t.bytes.length := by omega
    have hchunk := Fills.chunk r tok base n (lt_min (by decide) (by omega)) hin
    rw [hbisect] at hchunk
    rw [capture_loop, dif_pos hlt, if_neg hcancel]
    simp only [want, t₁] at hread hbisect
    simp only [hread, hbisect, hcancelled]
    exact hchunk.trans (ih (hchunk.length.trans hsize)) fun i => by omega
  | case5 n cursor t hge =>
    rw [capture_loop, dif_neg hge]
    exact (Fills.none t).trans (Fills.none t) fun i => iff_of_false (by omega) (by simp)

end

section

variable {a b : List UInt8} {i k : Nat}

/-- A run has all positions up to its end, and not its end. -/
theorem run_end_spec (a b : List UInt8) (i : Nat) :
    (∀ k, i ≤ k → k < run_end a b i → differ a b k) ∧ ¬ differ a b (run_end a b i) := by
  induction i using run_end.induct a b with
  | case1 i h ih =>
    rw [run_end, dif_pos h]
    refine ⟨fun k hlo hhi => ?_, ih.2⟩
    rcases Nat.eq_or_lt_of_le hlo with rfl | hlt
    · exact h
    · exact ih.1 k hlt hhi
  | case2 i h =>
    rw [run_end, dif_neg h]
    exact ⟨fun k hlo hhi => by omega, h⟩

theorem lt_run_end (h : differ a b i) : i < run_end a b i := by
  have hle := le_run_end a b (i + 1)
  rw [run_end, dif_pos h]
  omega

def span_of (x : Nat × Nat) : snapshot_span_t := ⟨x.1, x.2 - x.1⟩

/-- Behind the end of a run there is a position where the vectors agree. -/
theorem from_run (a b : List UInt8) (i k : Nat) : (i ≤ k ∧ differ a b k) ↔
    (i ≤ k ∧ k < run_end a b i) ∨ (run_end a b i ≤ k ∧ differ a b k) := by
  have hle := le_run_end a b i
  constructor
  · rintro ⟨hk, hd⟩
    by_cases hlt : k < run_end a b i
    · exact .inl ⟨hk, hlt⟩
    · exact .inr ⟨by omega, hd⟩
  · rintro (⟨hlo, hhi⟩ | ⟨hk, hd⟩)
    · exact ⟨hlo, (run_end_spec a b i).1 k hlo hhi⟩
    · exact ⟨hle.trans hk, hd⟩

theorem maximal_run {spans : List (Nat × Nat)} (h : differ a b i)
    (hspans : Spans.Maximal (fun k => run_end a b i ≤ k ∧ differ a b k) spans) :
    Spans.Maximal (fun k => i ≤ k ∧ differ a b k) ((i, run_end a b i) :: spans) := by
  refine hspans.cons (lt_run_end h) (fun k hk => lt_of_le_of_ne hk.1 ?_) (from_run a b i)
  rintro rfl
  exact (run_end_spec a b i).2 hk.2

/-- The scan adds the maximal intervals from its position on, at least one and at most as many as there is room for. -/
theorem diff_loop_eq (max_diff_ranges : Nat) (a b : List UInt8) (i : Nat) (changed : List snapshot_span_t) :
    ∃ spans, Spans.Maximal (fun k => i ≤ k ∧ differ a b k) spans ∧
      diff_loop max_diff_ranges a b i changed =
        changed ++ (spans.take (max (max_diff_ranges - changed.length) 1)).map span_of := by
  induction i, changed using diff_loop.induct max_diff_ranges a b with
  | case1 i changed h hsame ih =>
    obtain ⟨spans, hmaximal, hloop⟩ := ih
    have hnot : ¬ differ a b i := fun hd => (differ_iff.mp hd).2 hsame
    have hfrom : (fun k => i ≤ k ∧ differ a b k) = fun k => i + 1 ≤ k ∧ differ a b k := by
      funext k
      refine propext (and_congr_left fun hd => ⟨fun hk => lt_of_le_of_ne hk ?_, fun hk => by omega⟩)
      rintro rfl
      exact hnot hd
    refine ⟨spans, hfrom ▸ hmaximal, ?_⟩
    rw [diff_loop, dif_pos h, dif_pos hsame, hloop]
  | case2 i changed h hsame stop changed' hfull =>
    have hd : differ a b i := differ_iff.mpr ⟨h, hsame⟩
    obtain ⟨spans, hmaximal⟩ := Spans.exists_maximal (P := fun k => stop ≤ k ∧ differ a b k)
      fun k hk => (differ_iff.mp hk.2).1
    have hroom : max (max_diff_ranges - changed.length) 1 = 1 := by
      rw [List.length_append, List.length_singleton] at hfull
      omega
    refine ⟨_, maximal_run hd hmaximal, ?_⟩
    rw [diff_loop, dif_pos h, dif_neg hsame, hroom, List.take_succ_cons, List.take_zero]
    exact if_pos hfull
  | case3 i changed h hsame stop changed' hroom ih =>
    have hd : differ a b i := differ_iff.mpr ⟨h, hsame⟩
    obtain ⟨spans, hmaximal, hloop⟩ := ih
    have hleft : max (max_diff_ranges - changed.length) 1 = max (max_diff_ranges - changed'.length) 1 + 1 := by
      have hlen : changed'.length = changed.length + 1 := by rw [List.length_append, List.length_singleton]
      omega
    refine ⟨_, maximal_run hd hmaximal, ?_⟩
    rw [diff_loop, dif_pos h, dif_neg hsame, hleft, List.take_succ_cons, List.map_cons]
    dsimp only
    rw [if_neg hroom, hloop, List.append_assoc]
    rfl
  | case4 i changed h =>
    refine ⟨[], Spans.Maximal.nil fun k ⟨hk, hd⟩ => ?_, ?_⟩
    · have hlt := (differ_iff.mp hd).1
      omega
    · rw [diff_loop, dif_neg h, List.take_nil, List.map_nil, List.append_nil]

end

theorem capture_filled (r : still_reader_t) (tok : cancel_token_t) (base : UInt64) (size : Nat) :
    Fills r tok base (fun i => i < size) { bytes := List.replicate size 0 }
      (capture_loop r.tobuffer_reader_t tok base size 0 0 { bytes := List.replicate size 0 }) :=
  (Fills.none _).trans (capture_loop_fills 0 0 _ List.length_replicate) fun i => by simp

theorem sound_zero (r : still_reader_t) (base : UInt64) (size : Nat) : r.Sound base (List.replicate size 0) := by
  intro i b hb
  exact .inl (List.eq_of_mem_replicate (List.mem_of_getElem? hb))

theorem min_size (size max_bytes : UInt64) :
    (if size > max_bytes then max_bytes.toNat else size.toNat) = min size.toNat max_bytes.toNat := by
  split
  case isTrue hgt => exact (min_eq_right (UInt64.le_iff_toNat_le.mp (UInt64.le_of_lt hgt))).symm
  case isFalse hle => exact (min_eq_left (UInt64.le_iff_toNat_le.mp (UInt64.not_lt.mp hle))).symm

theorem snapshot_capture_spec (r : still_reader_t) (tok : cancel_token_t) (base size max_bytes : UInt64) :
    ∃ t, Fills r tok base (fun i => i < min size.toNat max_bytes.toNat)
        { bytes := List.replicate (min size.toNat max_bytes.toNat) 0 } t ∧
      (snapshot_capture r.tobuffer_reader_t tok base size max_bytes).bytes = t.bytes ∧
      ((snapshot_capture r.tobuffer_reader_t tok base size max_bytes).complete ↔
        t.cancelled = false ∧ t.holes = false ∧ size ≤ max_bytes) := by
  have hfills := capture_filled r tok base (min size.toNat max_bytes.toNat)
  refine ⟨_, hfills, ?_⟩
  rw [snapshot_capture]
  split
  case isTrue hzero =>
    subst hzero
    rw [show min (0 : UInt64).toNat max_bytes.toNat = 0 from Nat.zero_min _, capture_loop, dif_neg (Nat.lt_irrefl 0)]
    exact ⟨rfl, iff_of_true rfl ⟨rfl, rfl, UInt64.zero_le⟩⟩
  · simp only [decide_eq_true_eq, min_size, true_and]
    simp [and_assoc]

/-- A capture that is not cancelled has the memory, zero where there is none, and a diff has the first of the maximal
intervals of differing positions. -/
theorem snapshot_laws (r : still_reader_t) (tok : cancel_token_t) (base size max_bytes : UInt64) (max_diff_ranges : Nat)
    (a b : region_snapshot_t) :
    let snap := snapshot_capture r.tobuffer_reader_t tok base size max_bytes
    let diff := snapshot_diff max_diff_ranges a b
    (snap.bytes.length = min size.toNat max_bytes.toNat ∧
      (∀ i < snap.bytes.length, snap.bytes[i]? = some 0 ∨ snap.bytes[i]? = r.byte base i) ∧
      (snap.complete → size ≤ max_bytes ∧ ∀ i < size.toNat, snap.bytes[i]? = r.byte base i) ∧
      ((∀ n, tok.cancelled n = false) →
        (∀ i < snap.bytes.length, snap.bytes[i]? = some ((r.byte base i).getD 0)) ∧
          (snap.complete ↔ (∀ i < size.toNat, (r.byte base i).isSome) ∧ size ≤ max_bytes))) ∧
    (diff.valid ↔ a.base = b.base ∧ a.size = b.size ∧ a.bytes.length = b.bytes.length) ∧
    (diff.valid → ∃ spans, Spans.Maximal (fun i => i < a.bytes.length ∧ a.bytes[i]? ≠ b.bytes[i]?) spans ∧
      diff.changed = (spans.take (max max_diff_ranges 1)).map span_of) ∧
    (¬ diff.valid → diff.changed = []) := by
  dsimp only
  refine ⟨?_, ?_⟩
  · obtain ⟨t, hfills, hbytes, hcomplete⟩ := snapshot_capture_spec r tok base size max_bytes
    have hlen : t.bytes.length = min size.toNat max_bytes.toNat := by rw [hfills.length, List.length_replicate]
    have hzero := sound_zero r base (min size.toNat max_bytes.toNat)
    rw [hbytes, hcomplete, hlen, UInt64.le_iff_toNat_le]
    refine ⟨rfl, fun i hi => ?_, ?_, fun hlive => ?_⟩
    · have hget := List.getElem?_eq_getElem (show i < t.bytes.length by omega)
      rcases hfills.sound hzero i _ hget with hb | hb
      · exact .inl (hb ▸ hget)
      · exact .inr (hget.trans hb.symm)
    · rintro ⟨hlive, hholes, hle⟩
      refine ⟨hle, fun i hi => ?_⟩
      have hdone : r.Done base t.bytes i := hfills.done hlive hzero i (by omega)
      obtain ⟨c, hc⟩ := Option.isSome_iff_exists.mp ((hfills.readable_iff hlive rfl).mp hholes i (by omega))
      rw [still_reader_t.Done, hc] at hdone
      rw [hdone, hc]
      rfl
    · have hcancelled : t.cancelled = false := by
        by_contra hcancelled
        rcases hfills.polled (Bool.eq_true_of_not_eq_false hcancelled) with hstart | ⟨n, hn⟩
        · cases hstart
        · rw [hlive n] at hn
          cases hn
      refine ⟨fun i hi => hfills.done hcancelled hzero i hi, ?_⟩
      rw [hfills.readable_iff hcancelled rfl]
      constructor
      · rintro ⟨-, hreadable, hle⟩
        exact ⟨fun i hi => hreadable i (by omega), hle⟩
      · rintro ⟨hreadable, hle⟩
        exact ⟨hcancelled, fun i hi => hreadable i (by omega), hle⟩
  · obtain ⟨spans, hmaximal, hloop⟩ := diff_loop_eq max_diff_ranges a.bytes b.bytes 0 []
    rw [snapshot_diff]
    split
    case isTrue hmismatch =>
      refine ⟨iff_of_false Bool.false_ne_true ?_, fun hvalid => absurd hvalid Bool.false_ne_true, fun _ => rfl⟩
      rintro ⟨hbase, hsize, hlen⟩
      exact hmismatch.elim (fun h => h hbase) fun h => h.elim (fun h => h hsize) fun h => h hlen
    case isFalse hmatch =>
      rw [not_or, not_or, not_not, not_not, not_not] at hmatch
      refine ⟨iff_of_true rfl hmatch, fun _ => ⟨spans, ?_, ?_⟩, fun hvalid => absurd rfl hvalid⟩
      · have hsame : (fun i => i < a.bytes.length ∧ a.bytes[i]? ≠ b.bytes[i]?) =
            fun i => 0 ≤ i ∧ differ a.bytes b.bytes i :=
          funext fun i => propext (differ_iff_getElem? hmatch.2.2)
        rw [hsame]
        exact hmaximal
      · simpa using hloop

/-- Any memory, with any holes, read all or nothing. -/
def of_memory (mem : UInt64 → Option UInt8) : still_reader_t where
  read _ addr len :=
    if ∀ j < len, (mem (at_offset addr.toUInt64 j)).isSome then
      some ((List.range len).map fun j => (mem (at_offset addr.toUInt64 j)).getD 0)
    else none
  read_length hread := by
    obtain ⟨-, heq⟩ := Option.ite_none_right_eq_some.mp hread
    cases heq
    simp
  left _ _ _ := []
  left_length _ _ _ := Nat.zero_le _
  mem
  read_mem hread j hj := by
    obtain ⟨hall, heq⟩ := Option.ite_none_right_eq_some.mp hread
    cases heq
    obtain ⟨b, hb⟩ := Option.isSome_iff_exists.mp (hall j hj)
    simp at hb
    simp [hj, hb]
  read_one _ addr hbyte := by
    have hall : ∀ j < 1, (mem (at_offset addr.toNat.toUInt64 j)).isSome := by
      intro j hj
      obtain rfl : j = 0 := by omega
      simpa [at_offset] using hbyte
    rw [if_pos hall]
    rfl
  left_mem _ _ _ j hj := absurd hj (Nat.not_lt_zero j)

example : (snapshot_capture (of_memory fun a => if a = 0x1002 then none else some 1).tobuffer_reader_t ⟨fun _ => false⟩
    0x1000 4 16).bytes = [1, 1, 0, 1] := by
  decide +kernel

/-- A cancelled capture is not complete although all can be read, and a diff of two regions has no interval. -/
theorem cancelled_capture :
    (¬ ∀ (r : still_reader_t) (tok : cancel_token_t) (base size max_bytes : UInt64),
      (snapshot_capture r.tobuffer_reader_t tok base size max_bytes).complete ↔
        (∀ i < size.toNat, (r.byte base i).isSome) ∧ size ≤ max_bytes) ∧
    ¬ ∀ (a b : region_snapshot_t), a.bytes.length = b.bytes.length →
      ∃ spans, Spans.Maximal (fun i => i < a.bytes.length ∧ a.bytes[i]? ≠ b.bytes[i]?) spans ∧
        (snapshot_diff 250000 a b).changed = spans.map span_of := by
  constructor
  · intro hlaw
    have hcomplete := (hlaw (of_memory fun _ => some 1) ⟨fun _ => true⟩ 0x1000 1 16).mpr ⟨fun i _ => rfl, by decide⟩
    simp [snapshot_capture, capture_loop] at hcomplete
  · intro hlaw
    obtain ⟨spans, hmaximal, hchanged⟩ := hlaw { base := 0x1000, size := 1, bytes := [1], complete := true }
      { base := 0x2000, size := 1, bytes := [2], complete := true } rfl
    obtain rfl : spans = [] := List.map_eq_nil_iff.mp hchanged.symm
    obtain ⟨x, hx, -⟩ := (hmaximal.covers 0).mp ⟨by decide, by decide⟩
    cases hx

end slop.core.memory.snapshot
