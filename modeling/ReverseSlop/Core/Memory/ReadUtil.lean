import Mathlib.Tactic.Ring
import ReverseSlop.Core.Memory.Reader
import ReverseSlop.Library.Shares

namespace slop.core.memory.detail

/-- A part of the range still to be read. -/
structure seg_t where
  addr : Nat
  len : Nat

/-- A readable run as the sink gets it. -/
structure run_t where
  addr : Nat
  data : List UInt8

/-- An unreadable segment is cut at a multiple of the leaf size. -/
def seg_t.half (s : seg_t) (min_leaf : Nat) : Nat := max (s.len / 2 / min_leaf * min_leaf) min_leaf

/-- Each split lowers this weight of the stack, which is what ends the loop. -/
def stack_weight (stack : List seg_t) : Nat := (stack.map fun s => max 1 (2 * s.len - 1)).sum

theorem seg_t.half_pos (s : seg_t) {min_leaf : Nat} (hleaf : 0 < min_leaf) : 0 < s.half min_leaf := by
  simp only [seg_t.half]
  omega

theorem seg_t.half_lt (s : seg_t) (min_leaf : Nat) (hlen : min_leaf < s.len) :
    s.half min_leaf < s.len := by
  have hle : s.len / 2 / min_leaf * min_leaf ≤ s.len / 2 := Nat.div_mul_le_self _ _
  simp only [seg_t.half]
  omega

/-- The loop of `resilient_read` from poll number `n` on, with `stack` still to
be read: the runs handed to the sink in order, and the number of the next
request. The high half is pushed last, so it is read first. -/
def resilient_read_loop (r : reader_t) (tok : cancel_token_t) (min_leaf : Nat) (hleaf : 0 < min_leaf)
    (n : Nat) : List seg_t → List run_t × Nat
  | [] => ([], n)
  | s :: stack =>
    if tok.cancelled n then ([], n + 1)
    else
      match r.read n s.addr s.len with
      | some buf =>
        let (runs, next) := resilient_read_loop r tok min_leaf hleaf (n + 1) stack
        (⟨s.addr, buf⟩ :: runs, next)
      | none =>
        if s.len ≤ min_leaf then resilient_read_loop r tok min_leaf hleaf (n + 1) stack
        else
          let half := s.half min_leaf
          resilient_read_loop r tok min_leaf hleaf (n + 1)
            (⟨s.addr + half, s.len - half⟩ :: ⟨s.addr, half⟩ :: stack)
termination_by stack => stack_weight stack
decreasing_by
  · simp only [stack_weight, List.map_cons, List.sum_cons]
    omega
  · simp only [stack_weight, List.map_cons, List.sum_cons]
    omega
  · have hlt := s.half_lt min_leaf (by omega)
    have hpos := s.half_pos hleaf
    simp only [stack_weight, List.map_cons, List.sum_cons]
    omega

def resilient_read (r : reader_t) (tok : cancel_token_t) (addr len min_leaf n : Nat) : List run_t × Nat :=
  resilient_read_loop r tok (if min_leaf = 0 then 1 else min_leaf) (by split <;> omega) n [⟨addr, len⟩]

/-- A range that reads at once is handed on as one run. -/
theorem resilient_read_of_read {r : reader_t} {tok : cancel_token_t} {addr len min_leaf n : Nat}
    {buf : List UInt8} (hlive : tok.cancelled n = false) (hread : r.read n addr len = some buf) :
    resilient_read r tok addr len min_leaf n = ([⟨addr, buf⟩], n + 1) := by
  simp [resilient_read, resilient_read_loop, hlive, hread]

/-- Every run handed on lies in a segment of the stack, holds as many bytes as
were asked for and is the answer to a read. -/
theorem resilient_read_loop_runs (r : reader_t) (tok : cancel_token_t) (min_leaf : Nat)
    (hleaf : 0 < min_leaf) (n : Nat) (stack : List seg_t) :
    ∀ run ∈ (resilient_read_loop r tok min_leaf hleaf n stack).1,
      (∃ s ∈ stack, s.addr ≤ run.addr ∧ run.addr + run.data.length ≤ s.addr + s.len) ∧
      ∃ k, r.read k run.addr run.data.length = some run.data := by
  induction n, stack using resilient_read_loop.induct r tok min_leaf hleaf with
  | case1 n => simp [resilient_read_loop]
  | case2 n s stack hcancel => simp [resilient_read_loop, hcancel]
  | case3 n s stack hcancel buf hread runs next hrest ih =>
    intro run hrun
    have hlen := r.read_length hread
    rw [resilient_read_loop] at hrun
    simp only [hcancel, hread, Bool.false_eq_true, if_false, List.mem_cons] at hrun
    rcases hrun with rfl | hrun
    · exact ⟨⟨s, by simp, by simp, by simp [hlen]⟩, n, by simpa [hlen] using hread⟩
    · obtain ⟨⟨seg, hseg, hbounds⟩, hanswer⟩ := ih run hrun
      exact ⟨⟨seg, List.mem_cons_of_mem s hseg, hbounds⟩, hanswer⟩
  | case4 n s stack hcancel hread hshort ih =>
    intro run hrun
    rw [resilient_read_loop] at hrun
    simp only [hcancel, hread, hshort, Bool.false_eq_true, if_false, if_true] at hrun
    obtain ⟨⟨seg, hseg, hbounds⟩, hanswer⟩ := ih run hrun
    exact ⟨⟨seg, List.mem_cons_of_mem s hseg, hbounds⟩, hanswer⟩
  | case5 n s stack hcancel hread hlong half ih =>
    intro run hrun
    rw [resilient_read_loop] at hrun
    simp only [hcancel, hread, hlong, Bool.false_eq_true, if_false] at hrun
    obtain ⟨⟨seg, hseg, hlo, hhi⟩, hanswer⟩ := ih run hrun
    refine ⟨?_, hanswer⟩
    have hlt := s.half_lt min_leaf (by omega)
    simp only [List.mem_cons] at hseg
    rcases hseg with rfl | rfl | hseg
    · exact ⟨s, by simp, by simp only at hlo; omega, by simp only [half] at hhi; omega⟩
    · exact ⟨s, by simp, hlo, by simp only [half] at hhi; omega⟩
    · exact ⟨seg, List.mem_cons_of_mem s hseg, hlo, hhi⟩

/-- Whatever the sink sees lies in the range asked for and was read. -/
theorem resilient_read_runs (r : reader_t) (tok : cancel_token_t) (addr len min_leaf n : Nat) :
    ∀ run ∈ (resilient_read r tok addr len min_leaf n).1,
      addr ≤ run.addr ∧ run.addr + run.data.length ≤ addr + len ∧
      ∃ k, r.read k run.addr run.data.length = some run.data := by
  intro run hrun
  obtain ⟨⟨s, hs, hlo, hhi⟩, hanswer⟩ := resilient_read_loop_runs _ _ _ _ _ _ run hrun
  simp only [List.mem_singleton] at hs
  subst hs
  exact ⟨hlo, hhi, hanswer⟩

def seg_t.addresses (s : seg_t) : List Nat := List.range' s.addr s.len

def run_t.addresses (run : run_t) : List Nat := List.range' run.addr run.data.length

/-- Every answer of the one is the answer of the other, whatever the request's number. -/
def SameAnswers (r r' : reader_t) : Prop := ∀ n n' addr len, r.read n addr len = r'.read n' addr len

section

variable {r r' : reader_t} {tok tok' : cancel_token_t} {min_leaf : Nat} (hleaf : 0 < min_leaf)

/-- No address is handed on twice. -/
theorem resilient_read_loop_addresses (r : reader_t) (tok : cancel_token_t) (n : Nat) (stack : List seg_t) :
    ((resilient_read_loop r tok min_leaf hleaf n stack).1.flatMap run_t.addresses).Subperm
      (stack.flatMap seg_t.addresses) := by
  induction n, stack using resilient_read_loop.induct r tok min_leaf hleaf with
  | case1 n => simp [resilient_read_loop]
  | case2 n s stack hcancel => simp [resilient_read_loop, hcancel]
  | case3 n s stack hcancel buf hread runs next hrest ih =>
    have haddresses : run_t.addresses ⟨s.addr, buf⟩ = s.addresses := by
      rw [run_t.addresses, r.read_length hread, seg_t.addresses]
    rw [resilient_read_loop]
    simp only [hcancel, hread, Bool.false_eq_true, if_false, List.flatMap_cons, haddresses]
    exact (List.subperm_append_left _).mpr ih
  | case4 n s stack hcancel hread hshort ih =>
    rw [resilient_read_loop]
    simp only [hcancel, hread, hshort, Bool.false_eq_true, if_false, if_true, List.flatMap_cons]
    exact ih.trans (List.sublist_append_right _ _).subperm
  | case5 n s stack hcancel hread hlong half ih =>
    have hlt := s.half_lt min_leaf (by omega)
    have hhalves : s.addresses = seg_t.addresses ⟨s.addr, half⟩ ++ seg_t.addresses ⟨s.addr + half, s.len - half⟩ := by
      rw [seg_t.addresses, seg_t.addresses, seg_t.addresses, List.range'_append_1]
      congr 1
      exact (Nat.add_sub_cancel' hlt.le).symm
    rw [resilient_read_loop]
    simp only [hcancel, hread, hlong, Bool.false_eq_true, if_false, List.flatMap_cons] at ih ⊢
    rw [hhalves, ← List.append_assoc] at *
    exact ih.trans (List.perm_append_comm.append_right _).subperm

/-- A part of the range that is not empty is handed on in runs that are not empty. -/
theorem resilient_read_loop_nonempty (r : reader_t) (tok : cancel_token_t) (n : Nat) (stack : List seg_t)
    (hstack : ∀ s ∈ stack, 0 < s.len) : ∀ run ∈ (resilient_read_loop r tok min_leaf hleaf n stack).1, run.data ≠ [] := by
  induction n, stack using resilient_read_loop.induct r tok min_leaf hleaf with
  | case1 n => simp [resilient_read_loop]
  | case2 n s stack hcancel => simp [resilient_read_loop, hcancel]
  | case3 n s stack hcancel buf hread runs next hrest ih =>
    have hpos := hstack s (by simp)
    rw [resilient_read_loop]
    simp only [hcancel, hread, Bool.false_eq_true, if_false, List.forall_mem_cons]
    refine ⟨List.ne_nil_of_length_pos ?_, ih fun s' hs' => hstack s' (List.mem_cons_of_mem s hs')⟩
    rw [r.read_length hread]
    exact hpos
  | case4 n s stack hcancel hread hshort ih =>
    rw [resilient_read_loop]
    simp only [hcancel, hread, hshort, Bool.false_eq_true, if_false, if_true]
    exact ih fun s' hs' => hstack s' (List.mem_cons_of_mem s hs')
  | case5 n s stack hcancel hread hlong half ih =>
    have hlt := s.half_lt min_leaf (by omega)
    have hpos := s.half_pos hleaf
    rw [resilient_read_loop]
    simp only [hcancel, hread, hlong, Bool.false_eq_true, if_false]
    apply ih
    simp only [List.forall_mem_cons] at hstack ⊢
    exact ⟨Nat.sub_pos_of_lt hlt, hpos, hstack.2⟩

/-- The runs are those of the memory, not those of the thread that asks. -/
theorem resilient_read_loop_same (hreads : SameAnswers r r') (hlive : ∀ n, tok.cancelled n = false)
    (hlive' : ∀ n, tok'.cancelled n = false) (n n' : Nat) (stack : List seg_t) :
    (resilient_read_loop r tok min_leaf hleaf n stack).1 = (resilient_read_loop r' tok' min_leaf hleaf n' stack).1 := by
  induction n, stack using resilient_read_loop.induct r tok min_leaf hleaf generalizing n' with
  | case1 n => simp [resilient_read_loop]
  | case2 n s stack hcancel => simp [hlive] at hcancel
  | case3 n s stack hcancel buf hread runs next hrest ih =>
    have hread' := (hreads n n' s.addr s.len).symm.trans hread
    rw [resilient_read_loop]
    conv_rhs => rw [resilient_read_loop]
    simp only [hlive, hlive', hread, hread', Bool.false_eq_true, if_false, ih (n' + 1)]
  | case4 n s stack hcancel hread hshort ih =>
    have hread' := (hreads n n' s.addr s.len).symm.trans hread
    rw [resilient_read_loop]
    conv_rhs => rw [resilient_read_loop]
    simp only [hlive, hlive', hread, hread', hshort, Bool.false_eq_true, if_false, if_true, ih (n' + 1)]
  | case5 n s stack hcancel hread hlong half ih =>
    have hread' := (hreads n n' s.addr s.len).symm.trans hread
    rw [resilient_read_loop]
    conv_rhs => rw [resilient_read_loop]
    simp only [hlive, hlive', hread, hread', hlong, Bool.false_eq_true, if_false]
    exact ih (n' + 1)

end

section

variable {r r' : reader_t} {tok tok' : cancel_token_t}

theorem resilient_read_addresses (r : reader_t) (tok : cancel_token_t) (addr len min_leaf n : Nat) :
    ((resilient_read r tok addr len min_leaf n).1.flatMap run_t.addresses).Subperm (List.range' addr len) := by
  have hloop := resilient_read_loop_addresses (show 0 < if min_leaf = 0 then 1 else min_leaf by split <;> omega) r tok n
    [⟨addr, len⟩]
  rwa [List.flatMap_singleton] at hloop

theorem resilient_read_nonempty (r : reader_t) (tok : cancel_token_t) {addr len min_leaf n : Nat} (hlen : 0 < len) :
    ∀ run ∈ (resilient_read r tok addr len min_leaf n).1, run.data ≠ [] :=
  resilient_read_loop_nonempty _ r tok n _ (by simpa using hlen)

theorem resilient_read_same (hreads : SameAnswers r r') (hlive : ∀ n, tok.cancelled n = false)
    (hlive' : ∀ n, tok'.cancelled n = false) (addr len min_leaf n n' : Nat) :
    (resilient_read r tok addr len min_leaf n).1 = (resilient_read r' tok' addr len min_leaf n').1 :=
  resilient_read_loop_same _ hreads hlive hlive' n n' _

end

/-- The segments into which a range can be split. -/
inductive Grid (min_leaf : Nat) : seg_t → seg_t → Prop where
  | whole {s} : Grid min_leaf s s
  | low {s t} (hlong : min_leaf < s.len) (hnode : Grid min_leaf ⟨s.addr, s.half min_leaf⟩ t) : Grid min_leaf s t
  | high {s t} (hlong : min_leaf < s.len)
      (hnode : Grid min_leaf ⟨s.addr + s.half min_leaf, s.len - s.half min_leaf⟩ t) : Grid min_leaf s t

def seg_t.Readable (t : seg_t) (mem : memory_t) : Prop := ∀ a, t.addr ≤ a → a < t.addr + t.len → (mem a).isSome

/-- The segment has the bytes from `a` to `a + len`. -/
def seg_t.Covers (t : seg_t) (a len : Nat) : Prop := t.addr ≤ a ∧ a + len ≤ t.addr + t.len

variable {mem : memory_t} {min_leaf : Nat} {s t : seg_t} {a len : Nat}

theorem Grid.bounds (hgrid : Grid min_leaf s t) : s.addr ≤ t.addr ∧ t.addr + t.len ≤ s.addr + s.len := by
  induction hgrid with
  | whole => exact ⟨le_rfl, le_rfl⟩
  | @low s t hlong _ ih =>
    have hlt := s.half_lt min_leaf hlong
    dsimp only at ih
    omega
  | @high s t hlong _ ih =>
    have hlt := s.half_lt min_leaf hlong
    dsimp only at ih
    omega

theorem Grid.covers (hgrid : Grid min_leaf s t) (ht : t.Covers a len) : s.Covers a len := by
  obtain ⟨hlo, hhi⟩ := hgrid.bounds
  exact ⟨hlo.trans ht.1, ht.2.trans hhi⟩

/-- A range of a still memory is read exactly if all of it is readable. -/
theorem read_eq_some_iff {bytes : List UInt8} (mem : memory_t) (addr len : Nat) :
    mem.read addr len = some bytes ↔ (⟨addr, len⟩ : seg_t).Readable mem ∧ bytes = mem.bytes_at addr len := by
  constructor
  · intro hread
    have hreadable : (⟨addr, len⟩ : seg_t).Readable mem := by
      induction len generalizing addr bytes with
      | zero =>
        intro a hlo hhi
        dsimp only at hlo hhi
        omega
      | succ len ih =>
        simp only [memory_t.read, Option.bind_eq_bind, Option.bind_eq_some_iff] at hread
        obtain ⟨byte, hbyte, rest, hrest, -⟩ := hread
        intro a hlo hhi
        dsimp only at hlo hhi
        rcases Nat.eq_or_lt_of_le hlo with rfl | hlt
        · rw [hbyte]
          rfl
        · exact ih _ hrest a hlt (by change a < addr + 1 + len; omega)
    refine ⟨hreadable, ?_⟩
    rw [mem.read_eq_bytes_at hreadable] at hread
    exact (Option.some.inj hread).symm
  · rintro ⟨hreadable, rfl⟩
    exact mem.read_eq_bytes_at hreadable

/-- A run of a still memory has the bytes that are there. -/
theorem resilient_read_data {tok : cancel_token_t} {addr n : Nat} {run : run_t}
    (hrun : run ∈ (resilient_read mem.reader tok addr len min_leaf n).1) :
    run.data = mem.bytes_at run.addr run.data.length ∧ (⟨run.addr, run.data.length⟩ : seg_t).Readable mem := by
  obtain ⟨-, -, k, hread⟩ := resilient_read_runs mem.reader tok addr len min_leaf n run hrun
  obtain ⟨hreadable, hdata⟩ := (read_eq_some_iff mem run.addr run.data.length).mp hread
  exact ⟨hdata, hreadable⟩

theorem resilient_read_loop_covers_iff {tok : cancel_token_t} (hlive : ∀ n, tok.cancelled n = false) (hleaf : 0 < min_leaf)
    (n : Nat) (stack : List seg_t) :
    (∃ run ∈ (resilient_read_loop mem.reader tok min_leaf hleaf n stack).1, (⟨run.addr, run.data.length⟩ : seg_t).Covers a len) ↔
      ∃ s ∈ stack, ∃ t, Grid min_leaf s t ∧ t.Readable mem ∧ t.Covers a len := by
  induction n, stack using resilient_read_loop.induct mem.reader tok min_leaf hleaf with
  | case1 n => simp [resilient_read_loop]
  | case2 n s stack hcancel => simp [hlive] at hcancel
  | case3 n s stack hcancel buf hread runs next hrest ih =>
    obtain ⟨hreadable, rfl⟩ := (read_eq_some_iff mem s.addr s.len).mp hread
    rw [resilient_read_loop]
    simp only [hcancel, hread, Bool.false_eq_true, if_false, List.exists_mem_cons_iff, ih]
    refine or_congr_left ⟨fun hcovers => ?_, ?_⟩
    · rw [mem.length_bytes_at] at hcovers
      exact ⟨s, .whole, hreadable, hcovers⟩
    · rintro ⟨t, hgrid, -, hcovers⟩
      rw [mem.length_bytes_at]
      exact hgrid.covers hcovers
  | case4 n s stack hcancel hread hshort ih =>
    rw [resilient_read_loop]
    simp only [hcancel, hread, hshort, Bool.false_eq_true, if_false, if_true, List.exists_mem_cons_iff, ih]
    refine (or_iff_right ?_).symm
    rintro ⟨t, hgrid, hreadable, -⟩
    cases hgrid with
    | whole => simp [memory_t.reader, (read_eq_some_iff mem s.addr s.len).mpr ⟨hreadable, rfl⟩] at hread
    | low hlong => omega
    | high hlong => omega
  | case5 n s stack hcancel hread hlong half ih =>
    rw [resilient_read_loop]
    simp only [hcancel, hread, hlong, Bool.false_eq_true, if_false, List.exists_mem_cons_iff] at ih ⊢
    rw [ih, ← or_assoc]
    refine or_congr_left ⟨?_, ?_⟩
    · rintro (⟨t, hgrid, ht⟩ | ⟨t, hgrid, ht⟩)
      · exact ⟨t, .high (by omega) hgrid, ht⟩
      · exact ⟨t, .low (by omega) hgrid, ht⟩
    · rintro ⟨t, hgrid, hreadable, hcovers⟩
      cases hgrid with
      | whole => simp [memory_t.reader, (read_eq_some_iff mem s.addr s.len).mpr ⟨hreadable, rfl⟩] at hread
      | low _ hnode => exact Or.inr ⟨t, hnode, hreadable, hcovers⟩
      | high _ hnode => exact Or.inl ⟨t, hnode, hreadable, hcovers⟩

/-- Some run has the bytes exactly if a readable segment of the grid has them. -/
theorem resilient_read_covers_iff {tok : cancel_token_t} (hlive : ∀ n, tok.cancelled n = false) (hleaf : 0 < min_leaf)
    (addr size n : Nat) :
    (∃ run ∈ (resilient_read mem.reader tok addr size min_leaf n).1, (⟨run.addr, run.data.length⟩ : seg_t).Covers a len) ↔
      ∃ t, Grid min_leaf ⟨addr, size⟩ t ∧ t.Readable mem ∧ t.Covers a len := by
  have hone : (if min_leaf = 0 then 1 else min_leaf) = min_leaf := if_neg (by omega)
  rw [resilient_read, resilient_read_loop_covers_iff hlive, hone]
  simp

end slop.core.memory.detail

namespace slop.core.memory.detail

/-- The `k`-th cell of the grid over a segment; the last one may be shorter. -/
def seg_t.cell (s : seg_t) (min_leaf k : Nat) : seg_t := ⟨s.addr + k * min_leaf, min min_leaf (s.len - k * min_leaf)⟩

section

variable {s : seg_t} {min_leaf k : Nat}

/-- A segment is cut between two cells. -/
theorem seg_t.half_dvd (s : seg_t) (min_leaf : Nat) : min_leaf ∣ s.half min_leaf := by
  rw [seg_t.half]
  obtain hmax | hmax := max_choice (s.len / 2 / min_leaf * min_leaf) min_leaf
  · rw [hmax]
    exact Nat.dvd_mul_left _ _
  · rw [hmax]

/-- Every cell is one of the segments into which the range can be split. -/
theorem grid_cell (hleaf : 0 < min_leaf) (hk : k * min_leaf < s.len) : Grid min_leaf s (s.cell min_leaf k) := by
  induction hlen : s.len using Nat.strong_induction_on generalizing s k with
  | _ len ih =>
    obtain hlong | hshort := Nat.lt_or_ge min_leaf s.len
    · have hlt := s.half_lt min_leaf hlong
      have hpos := s.half_pos hleaf
      obtain ⟨j, hj⟩ := s.half_dvd min_leaf
      rw [Nat.mul_comm] at hj
      obtain hlow | hhigh := Nat.lt_or_ge k j
      · -- the cell lies in the low half
        have hend : (k + 1) * min_leaf ≤ j * min_leaf := Nat.mul_le_mul_right _ hlow
        rw [Nat.succ_mul] at hend
        have hcell : s.cell min_leaf k = seg_t.cell ⟨s.addr, s.half min_leaf⟩ min_leaf k := by
          simp only [seg_t.cell, seg_t.mk.injEq, true_and]
          omega
        have hin : k * min_leaf < s.half min_leaf := by omega
        rw [hcell]
        exact .low hlong (ih (s.half min_leaf) (by omega) hin rfl)
      · have hstart : j * min_leaf ≤ k * min_leaf := Nat.mul_le_mul_right _ hhigh
        have hsub : (k - j) * min_leaf = k * min_leaf - j * min_leaf := Nat.sub_mul _ _ _
        have hcell : s.cell min_leaf k =
            seg_t.cell ⟨s.addr + s.half min_leaf, s.len - s.half min_leaf⟩ min_leaf (k - j) := by
          simp only [seg_t.cell, seg_t.mk.injEq]
          omega
        have hin : (k - j) * min_leaf < s.len - s.half min_leaf := by omega
        rw [hcell]
        exact .high hlong (ih (s.len - s.half min_leaf) (by omega) hin rfl)
    · have hzero : k = 0 := by
        by_contra hpos
        have hle := Nat.le_mul_of_pos_left min_leaf (Nat.pos_of_ne_zero hpos)
        omega
      have hwhole : s.cell min_leaf k = s := by simp [seg_t.cell, hzero, hshort]
      rw [hwhole]
      exact .whole

end

section

variable {runs : List run_t} {run run' : run_t} {a len : Nat}

/-- Two runs of which the addresses are all different do not both have an address. -/
theorem run_unique (hnodup : (runs.flatMap run_t.addresses).Nodup) (hrun : run ∈ runs) (hrun' : run' ∈ runs)
    (ha : a ∈ run.addresses) (ha' : a ∈ run'.addresses) : run = run' := by
  by_contra hne
  have : Std.Symm (Function.onFun List.Disjoint run_t.addresses) := ⟨fun _ _ h a ha hb => h hb ha⟩
  have hapart := (List.nodup_flatMap.mp hnodup).2.forall hrun hrun' hne
  exact hapart ha ha'

theorem covers_mem (hlen : 0 < len) (hcovers : (⟨run.addr, run.data.length⟩ : seg_t).Covers a len) : a ∈ run.addresses := by
  obtain ⟨hlo, hhi⟩ := hcovers
  simp only at hlo hhi
  rw [run_t.addresses, List.mem_range'_1]
  omega

end

/-- The runs are disjoint parts of the range that can be read, with the bytes that are there, and each cell of the grid
that can be read is in exactly one of them. -/
theorem resilient_read_cells (mem : memory_t) (addr len min_leaf n : Nat) :
    let runs := (resilient_read mem.reader idle addr len min_leaf n).1
    let leaf := max min_leaf 1
    (runs.flatMap run_t.addresses).Nodup ∧
      (∀ run ∈ runs, addr ≤ run.addr ∧ run.addr + run.data.length ≤ addr + len ∧
        (⟨run.addr, run.data.length⟩ : seg_t).Readable mem ∧ run.data = mem.bytes_at run.addr run.data.length) ∧
      ∀ k, k * leaf < len → let cell := (⟨addr, len⟩ : seg_t).cell leaf k
        cell.Readable mem →
          ∃! run, run ∈ runs ∧ (⟨run.addr, run.data.length⟩ : seg_t).Covers cell.addr cell.len := by
  intro runs leaf
  have hnodup : (runs.flatMap run_t.addresses).Nodup := by
    obtain ⟨addresses, hperm, hsub⟩ := resilient_read_addresses mem.reader idle addr len min_leaf n
    exact hperm.nodup_iff.mp (List.Nodup.sublist hsub List.nodup_range')
  refine ⟨hnodup, ?_, ?_⟩
  · intro run hrun
    obtain ⟨hlo, hhi, -⟩ := resilient_read_runs mem.reader idle addr len min_leaf n run hrun
    obtain ⟨hdata, hreadable⟩ := resilient_read_data hrun
    exact ⟨hlo, hhi, hreadable, hdata⟩
  · intro k hk cell hreadable
    have hleaf : 0 < leaf := by
      simp only [leaf]
      omega
    have hsame : resilient_read mem.reader idle addr len min_leaf n = resilient_read mem.reader idle addr len leaf n := by
      simp only [resilient_read, leaf]
      congr 1
      split <;> split <;> omega
    have hpos : 0 < cell.len := by
      simp only [cell, seg_t.cell]
      omega
    have hcovers := (resilient_read_covers_iff idle_live hleaf addr len n).mpr
      ⟨cell, grid_cell hleaf hk, hreadable, le_rfl, le_rfl⟩
    rw [← hsame] at hcovers
    obtain ⟨run, hrun, hcell⟩ := hcovers
    refine ⟨run, ⟨hrun, hcell⟩, ?_⟩
    intro run' hother
    obtain ⟨hrun', hcell'⟩ := hother
    exact run_unique hnodup hrun' hrun (covers_mem hpos hcell') (covers_mem hpos hcell)

end slop.core.memory.detail
