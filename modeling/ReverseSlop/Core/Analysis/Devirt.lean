import Mathlib.Algebra.Group.Nat.Defs
import Mathlib.Data.List.Destutter
import ReverseSlop.Library.Sorted

namespace slop.core.analysis.devirt

/-- What the emulator returns, of a traced instruction the address. -/
structure run_result_t where
  ok : Bool
  error : String := ""
  stopped_reason : String := ""
  trace : List UInt64

structure trace_result_t where
  ok : Bool := false
  error : String := ""
  note : String := ""
  runs : Nat := 0
  dispatcher_hits : Nat := 0
  bytecode : List Nat := []
  handler_order : List UInt64 := []
  stopped_reason : String := ""

/-- The state of the loop over the trace. -/
structure tracer_t where
  dispatcher_hits : Nat := 0
  ops_this_round : List Nat := []
  bytecode : List Nat := []
  handler_order : List UInt64 := []

section

variable (handler_vas : List UInt64) (dispatcher : UInt64) (max_ops : Nat)

/-- The greatest start with a window that fits, and the slot of the last handler there. -/
def best_window (fits : UInt64 → Bool) (ranges : List (UInt64 × Nat)) : UInt64 × Option Nat :=
  ranges.foldl (fun best range => if fits range.1 ∧ range.1 ≥ best.1 then (range.1, some range.2) else best) (0, none)

def opcode_for_ip (ip : UInt64) : Option Nat :=
  (best_window (fun start => ip ≥ start && ip < start + 256) handler_vas.zipIdx).2

def flush_ops : List Nat → tracer_t → tracer_t
  | [], t => { t with ops_this_round := [] }
  | op :: ops, t =>
    if t.bytecode.length ≥ max_ops then t
    else
      flush_ops ops { t with
        bytecode := t.bytecode ++ [op]
        handler_order := t.handler_order ++ [handler_vas.getD op 0] }

def flush (t : tracer_t) : tracer_t := flush_ops handler_vas max_ops t.ops_this_round t

def trace_step (t : tracer_t) (ip : UInt64) : tracer_t :=
  if ip = dispatcher then flush handler_vas max_ops { t with dispatcher_hits := t.dispatcher_hits + 1 }
  else
    match opcode_for_ip handler_vas ip with
    | some op => { t with ops_this_round := SortedSet.insert op t.ops_this_round }
    | none => t

/-- The bytecode of a run of the emulator. -/
def trace_bytecode (rr : run_result_t) : trace_result_t :=
  if rr.ok = false ∧ rr.trace = [] then
    { error := "emulation failed: " ++ if rr.error = "" then rr.stopped_reason else rr.error }
  else
    let t := flush handler_vas max_ops (rr.trace.foldl (trace_step handler_vas dispatcher max_ops) {})
    { ok := true
      note := if t.dispatcher_hits = 0 then "dispatcher never reached under seeded runs" else ""
      runs := 1
      dispatcher_hits := t.dispatcher_hits
      bytecode := t.bytecode
      handler_order := t.handler_order
      stopped_reason := rr.stopped_reason }

/-- An address is in the window of a handler. -/
def InWindow (start ip : UInt64) : Prop := start.toNat ≤ ip.toNat ∧ ip.toNat < start.toNat + 256

/-- The handler with the nearest start whose window an address is in. Of handlers at one address it is the last. -/
def IsNearest (ip : UInt64) (range : UInt64 × Nat) : Prop :=
  InWindow range.1 ip ∧ ∀ r ∈ handler_vas.zipIdx, InWindow r.1 ip → r.1 < range.1 ∨ (r.1 = range.1 ∧ r.2 ≤ range.2)

instance (start ip : UInt64) : Decidable (InWindow start ip) := inferInstanceAs (Decidable (_ ∧ _))

instance (ip : UInt64) (range : UInt64 × Nat) : Decidable (IsNearest handler_vas ip range) :=
  inferInstanceAs (Decidable (_ ∧ _))

def nearest (ip : UInt64) : Option Nat :=
  (handler_vas.zipIdx.find? fun range => decide (IsNearest handler_vas ip range)).map Prod.snd

/-- The handlers that a trace enters between two visits of the dispatcher. -/
def entered_between (round : List UInt64) : List Nat := (round.filterMap (nearest handler_vas)).destutter (· ≠ ·)

/-- The handlers in the order in which a trace enters them. -/
def entered (trace : List UInt64) : List Nat := (trace.splitOn dispatcher).flatMap (entered_between handler_vas)

end

section

variable {handler_vas : List UInt64} {fits : UInt64 → Bool} {ranges : List (UInt64 × Nat)} {ip : UInt64}

/-- The best of some windows that fit. -/
def IsBest (fits : UInt64 → Bool) (ranges : List (UInt64 × Nat)) (range : UInt64 × Nat) : Prop :=
  range ∈ ranges ∧ fits range.1 = true ∧
    ∀ r ∈ ranges, fits r.1 = true → r.1 < range.1 ∨ (r.1 = range.1 ∧ r.2 ≤ range.2)

theorem IsBest.unique {a b : UInt64 × Nat} (ha : IsBest fits ranges a) (hb : IsBest fits ranges b) : a = b := by
  obtain ⟨hma, hfa, ha⟩ := ha
  obtain ⟨hmb, hfb, hb⟩ := hb
  rcases ha b hmb hfb with hlt | ⟨hsame, hle⟩
  · rcases hb a hma hfa with hlt' | ⟨hsame, -⟩
    · exact absurd hlt' (UInt64.lt_asymm hlt)
    · exact absurd hlt (hsame ▸ UInt64.lt_irrefl _)
  · rcases hb a hma hfa with hlt | ⟨-, hle'⟩
    · exact absurd hlt (hsame ▸ UInt64.lt_irrefl _)
    · exact Prod.ext hsame.symm (Nat.le_antisymm hle' hle)

/-- The loop over the handlers finds the best window, if the slots ascend. -/
theorem best_window_spec (fits : UInt64 → Bool) (hslots : ranges.Pairwise fun a b => a.2 < b.2) :
    (∃ n, (best_window fits ranges).2 = some n ∧ IsBest fits ranges ((best_window fits ranges).1, n)) ∨
      (best_window fits ranges = (0, none) ∧ ∀ r ∈ ranges, fits r.1 = false) := by
  induction ranges using List.reverseRecOn with
  | nil => exact Or.inr ⟨rfl, by simp⟩
  | append_singleton ranges range ih =>
    obtain ⟨hbefore, -, hlast⟩ := List.pairwise_append.mp hslots
    have hstep : best_window fits (ranges ++ [range]) =
        if fits range.1 ∧ range.1 ≥ (best_window fits ranges).1 then (range.1, some range.2)
        else best_window fits ranges := by
      rw [best_window, List.foldl_append]
      rfl
    have hslot : ∀ r ∈ ranges, r.2 ≤ range.2 := fun r hr => Nat.le_of_lt (hlast r hr range (List.mem_singleton_self _))
    rw [hstep]
    split
    · rename_i hfits
      left
      refine ⟨_, rfl, List.mem_append_right _ (List.mem_singleton_self _), hfits.1, fun r hr hr' => ?_⟩
      rcases List.mem_append.mp hr with hr | hr
      · have hle : r.1 ≤ range.1 := by
          rcases ih hbefore with ⟨n, -, -, -, hbest⟩ | ⟨-, hnone⟩
          · rcases hbest r hr hr' with hlt | ⟨hsame, -⟩
            · exact UInt64.le_trans (UInt64.le_of_lt hlt) hfits.2
            · exact hsame ▸ hfits.2
          · rw [hnone r hr] at hr'
            cases hr'
        rcases UInt64.lt_or_eq_of_le hle with hlt | hsame
        · exact Or.inl hlt
        · exact Or.inr ⟨hsame, hslot r hr⟩
      · rw [List.mem_singleton.mp hr]
        exact Or.inr ⟨rfl, Nat.le_refl _⟩
    · rename_i hnot
      rcases ih hbefore with ⟨n, hn, hmem, hfits, hbest⟩ | ⟨hnil, hnone⟩
      · refine Or.inl ⟨n, hn, List.mem_append_left _ hmem, hfits, fun r hr hr' => ?_⟩
        rcases List.mem_append.mp hr with hr | hr
        · exact hbest r hr hr'
        · rw [List.mem_singleton.mp hr] at hr' ⊢
          exact Or.inl (UInt64.not_le.mp fun hle => hnot ⟨hr', hle⟩)
      · refine Or.inr ⟨hnil, fun r hr => ?_⟩
        rcases List.mem_append.mp hr with hr | hr
        · exact hnone r hr
        · rw [List.mem_singleton.mp hr, Bool.eq_false_iff]
          intro hr'
          rw [hnil] at hnot
          exact hnot ⟨hr', UInt64.zero_le⟩

theorem pairwise_zipIdx (l : List UInt64) : l.zipIdx.Pairwise fun a b => a.2 < b.2 := by
  rw [List.pairwise_iff_getElem]
  intro i j hi hj hlt
  simpa using hlt

theorem isBest_of_isNearest {range : UInt64 × Nat} (hmem : range ∈ handler_vas.zipIdx) (h : IsNearest handler_vas ip range) :
    IsBest (fun start => decide (InWindow start ip)) handler_vas.zipIdx range := by
  refine ⟨hmem, decide_eq_true h.1, fun r hr hr' => h.2 r hr (of_decide_eq_true hr')⟩

theorem isNearest_of_isBest {range : UInt64 × Nat}
    (h : IsBest (fun start => decide (InWindow start ip)) handler_vas.zipIdx range) : IsNearest handler_vas ip range :=
  ⟨of_decide_eq_true h.2.1, fun r hr hr' => h.2.2 r hr (decide_eq_true hr')⟩

/-- The nearest handler is the best of the windows that an address is in. -/
theorem nearest_eq_some {n : Nat} :
    nearest handler_vas ip = some n ↔ ∃ start, (start, n) ∈ handler_vas.zipIdx ∧ IsNearest handler_vas ip (start, n) := by
  rw [nearest, Option.map_eq_some_iff]
  constructor
  · rintro ⟨⟨start, slot⟩, hfind, rfl⟩
    have hrange := List.find?_some hfind
    exact ⟨start, List.mem_of_find?_eq_some hfind, of_decide_eq_true hrange⟩
  · rintro ⟨start, hmem, hnearest⟩
    cases hfind : handler_vas.zipIdx.find? fun range => decide (IsNearest handler_vas ip range) with
    | none => exact absurd (decide_eq_true hnearest) (by simpa using List.find?_eq_none.mp hfind _ hmem)
    | some range =>
      have hrange := List.find?_some hfind
      have hsame := (isBest_of_isNearest hmem hnearest).unique
        (isBest_of_isNearest (List.mem_of_find?_eq_some hfind) (of_decide_eq_true hrange))
      exact ⟨range, rfl, congrArg Prod.snd hsame.symm⟩

/-- A window is found unless its end does not fit 64 bits. -/
theorem window_iff {start : UInt64} :
    (ip ≥ start && ip < start + 256) = true ↔ InWindow start ip ∧ start.toNat + 256 < 2 ^ 64 := by
  have hstart := start.toNat_lt
  have hip := ip.toNat_lt
  have hadd : (start + 256).toNat = (start.toNat + 256) % 2 ^ 64 := UInt64.toNat_add start 256
  simp only [Bool.and_eq_true, decide_eq_true_eq, ge_iff_le, UInt64.le_iff_toNat_le, UInt64.lt_iff_toNat_lt, hadd, InWindow]
  omega

/-- What the code finds is a handler whose window ends within 64 bits. -/
theorem opcode_spec {n : Nat} (h : opcode_for_ip handler_vas ip = some n) :
    ∃ start, IsBest (fun start => ip ≥ start && ip < start + 256) handler_vas.zipIdx (start, n) := by
  rcases best_window_spec (fun start => ip ≥ start && ip < start + 256) (pairwise_zipIdx handler_vas) with
    ⟨m, hm, hbest⟩ | ⟨hnone, -⟩
  · obtain rfl : m = n := Option.some.inj (hm.symm.trans h)
    exact ⟨_, hbest⟩
  · rw [opcode_for_ip, hnone] at h
    cases h

/-- The code finds the nearest handler, if the end of its window fits 64 bits. -/
theorem opcode_eq_nearest
    (hfits : ∀ start slot, (start, slot) ∈ handler_vas.zipIdx → IsNearest handler_vas ip (start, slot) → start.toNat + 256 < 2 ^ 64) :
    opcode_for_ip handler_vas ip = nearest handler_vas ip := by
  have hcode := best_window_spec (fun start => ip ≥ start && ip < start + 256) (pairwise_zipIdx handler_vas)
  rcases best_window_spec (fun start => decide (InWindow start ip)) (pairwise_zipIdx handler_vas) with
    ⟨n, -, hbest⟩ | ⟨-, hnone⟩
  · obtain ⟨start, hbest⟩ : ∃ start, IsBest (fun start => decide (InWindow start ip)) handler_vas.zipIdx (start, n) :=
      ⟨_, hbest⟩
    have hnearest := isNearest_of_isBest hbest
    have hend := hfits _ _ hbest.1 hnearest
    rw [nearest_eq_some.mpr ⟨_, hbest.1, hnearest⟩]
    have hfound : IsBest (fun start => ip ≥ start && ip < start + 256) handler_vas.zipIdx (start, n) := by
      refine ⟨hbest.1, window_iff.mpr ⟨hnearest.1, hend⟩, fun r hr hr' => ?_⟩
      exact hnearest.2 r hr (window_iff.mp hr').1
    rcases hcode with ⟨m, hm, hbest'⟩ | ⟨-, hnone⟩
    · rw [opcode_for_ip, hm, (Prod.mk.inj (hfound.unique hbest')).2]
    · exact absurd (hfound.2.1.symm.trans (hnone _ hbest.1)) (by decide)
  · have hnot : ∀ r ∈ handler_vas.zipIdx, ¬ InWindow r.1 ip := fun r hr => of_decide_eq_false (hnone r hr)
    rcases hcode with ⟨m, -, hmem, hwindow, -⟩ | ⟨hcode, -⟩
    · exact absurd (window_iff.mp hwindow).1 (hnot _ hmem)
    · rw [opcode_for_ip, hcode]
      refine (Option.eq_none_iff_forall_ne_some.mpr fun n hn => ?_).symm
      obtain ⟨start, hmem, hnearest⟩ := nearest_eq_some.mp hn
      exact hnot _ hmem hnearest.1

end

section

variable {handler_vas : List UInt64} {dispatcher : UInt64} {max_ops : Nat}

theorem bytecode_flush_ops (ops : List Nat) {t : tracer_t} (ht : t.bytecode.length ≤ max_ops) :
    (flush_ops handler_vas max_ops ops t).bytecode = (t.bytecode ++ ops).take max_ops := by
  induction ops generalizing t with
  | nil => simp [flush_ops, List.take_of_length_le ht]
  | cons op ops ih =>
    rw [flush_ops]
    split
    · rename_i hfull
      rw [List.take_append_of_le_length hfull, List.take_of_length_le ht]
    · rename_i hroom
      have hlength : (t.bytecode ++ [op]).length ≤ max_ops := by
        rw [List.length_append, List.length_singleton]
        omega
      rw [ih hlength, List.append_assoc]
      rfl

theorem ops_flush_ops (ops : List Nat) {t : tracer_t} (ht : t.bytecode.length + ops.length ≤ max_ops) :
    (flush_ops handler_vas max_ops ops t).ops_this_round = [] := by
  induction ops generalizing t with
  | nil => rfl
  | cons op ops ih =>
    rw [List.length_cons] at ht
    rw [flush_ops, if_neg (by omega)]
    refine ih ?_
    rw [List.length_append, List.length_singleton]
    omega

/-- The slots of the rounds that are still to come, each round in ascending order, when some are known of this one. -/
def sorted_from (handler_vas : List UInt64) (dispatcher : UInt64) : List Nat → List UInt64 → List Nat
  | ops, [] => ops
  | ops, ip :: trace =>
    if ip = dispatcher then ops ++ sorted_from handler_vas dispatcher [] trace
    else
      match opcode_for_ip handler_vas ip with
      | some op => sorted_from handler_vas dispatcher (SortedSet.insert op ops) trace
      | none => sorted_from handler_vas dispatcher ops trace

/-- A tracer that has closed some rounds holds what fits of them, and this round unless it is full. -/
def Holds (max_ops : Nat) (closed ops : List Nat) (t : tracer_t) : Prop :=
  t.bytecode = closed.take max_ops ∧ (closed.length ≤ max_ops → t.ops_this_round = ops)

theorem Holds.flush {closed ops : List Nat} {t : tracer_t} (h : Holds max_ops closed ops t) :
    Holds max_ops (closed ++ ops) [] (flush handler_vas max_ops t) := by
  obtain ⟨hbytecode, hops⟩ := h
  have hle : t.bytecode.length ≤ max_ops := by
    rw [hbytecode]
    exact List.length_take_le _ _
  rw [devirt.flush]
  constructor
  · rw [bytecode_flush_ops _ hle, hbytecode]
    by_cases hroom : closed.length ≤ max_ops
    · rw [hops hroom, List.take_of_length_le hroom]
    · have hfull : max_ops ≤ (closed.take max_ops).length := by
        rw [List.length_take]
        omega
      rw [List.take_append_of_le_length hfull, List.take_append_of_le_length (by omega), List.take_take, Nat.min_self]
  · intro hlength
    rw [List.length_append] at hlength
    have hroom : closed.length ≤ max_ops := by omega
    refine ops_flush_ops _ ?_
    rw [hops hroom, hbytecode, List.take_of_length_le hroom]
    exact hlength

/-- What a run of the tracer holds at its end. -/
theorem Holds.run {closed ops : List Nat} {t : tracer_t} (h : Holds max_ops closed ops t) (trace : List UInt64) :
    (devirt.flush handler_vas max_ops (trace.foldl (trace_step handler_vas dispatcher max_ops) t)).bytecode =
      (closed ++ sorted_from handler_vas dispatcher ops trace).take max_ops := by
  induction trace generalizing closed ops t with
  | nil => exact h.flush.1
  | cons ip trace ih =>
    rw [List.foldl_cons, trace_step, sorted_from]
    by_cases hip : ip = dispatcher
    · rw [if_pos hip, if_pos hip]
      have hclosed : Holds max_ops closed ops { t with dispatcher_hits := t.dispatcher_hits + 1 } := h
      rw [ih hclosed.flush, List.append_assoc]
    · rw [if_neg hip, if_neg hip]
      cases opcode_for_ip handler_vas ip with
      | none => exact ih h
      | some op => exact ih ⟨h.1, fun hroom => congrArg (SortedSet.insert op) (h.2 hroom)⟩

/-- The slots of a round in ascending order. -/
def sorted_between (handler_vas round : List UInt64) : List Nat :=
  SortedSet.collect (round.filterMap (opcode_for_ip handler_vas))

theorem sorted_from_eq (ops : List Nat) (trace : List UInt64) :
    ∃ round rounds, trace.splitOn dispatcher = round :: rounds ∧
      sorted_from handler_vas dispatcher ops trace =
        (round.filterMap (opcode_for_ip handler_vas)).foldl (fun s op => SortedSet.insert op s) ops ++
          rounds.flatMap (sorted_between handler_vas) := by
  induction trace generalizing ops with
  | nil => exact ⟨[], [], List.splitOn_nil _, by simp [sorted_from]⟩
  | cons ip trace ih =>
    rw [List.splitOn_cons_eq_if_modifyHead, sorted_from]
    by_cases hip : ip = dispatcher
    · obtain ⟨round, rounds, hsplit, hsorted⟩ := ih []
      rw [if_pos hip, if_pos (beq_iff_eq.mpr hip), hsplit, hsorted]
      exact ⟨[], round :: rounds, rfl, rfl⟩
    · rw [if_neg hip, if_neg (by simpa using hip)]
      cases hop : opcode_for_ip handler_vas ip with
      | none =>
        obtain ⟨round, rounds, hsplit, hsorted⟩ := ih ops
        refine ⟨ip :: round, rounds, by rw [hsplit]; rfl, ?_⟩
        rw [List.filterMap_cons_none hop]
        exact hsorted
      | some op =>
        obtain ⟨round, rounds, hsplit, hsorted⟩ := ih (SortedSet.insert op ops)
        refine ⟨ip :: round, rounds, by rw [hsplit]; rfl, ?_⟩
        rw [List.filterMap_cons_some hop]
        exact hsorted

/-- The bytecode has the slots of each round in ascending order, as far as there is room. -/
theorem bytecode_eq (rr : run_result_t) :
    (trace_bytecode handler_vas dispatcher max_ops rr).bytecode =
      ((rr.trace.splitOn dispatcher).flatMap (sorted_between handler_vas)).take max_ops := by
  have hempty : Holds max_ops [] [] {} := ⟨List.take_nil.symm, fun _ => rfl⟩
  have hall : sorted_from handler_vas dispatcher [] rr.trace =
      (rr.trace.splitOn dispatcher).flatMap (sorted_between handler_vas) := by
    obtain ⟨round, rounds, hsplit, hsorted⟩ := sorted_from_eq [] rr.trace
    rw [hsplit]
    exact hsorted
  rw [← hall, trace_bytecode]
  split
  · rename_i hfailed
    rw [hfailed.2, sorted_from, List.take_nil]
  · exact hempty.run rr.trace

/-- The rounds of a trace are what stands between the visits of the dispatcher. -/
theorem mem_rounds {trace : List UInt64} {ip : UInt64} :
    (∃ round ∈ trace.splitOn dispatcher, ip ∈ round) ↔ ip ∈ trace ∧ ip ≠ dispatcher := by
  induction trace with
  | nil => simp
  | cons first trace ih =>
    obtain ⟨round, rounds, hsplit⟩ := List.exists_cons_of_ne_nil (List.splitOn_ne_nil dispatcher trace)
    rw [List.splitOn_cons_eq_if_modifyHead]
    rw [hsplit] at ih ⊢
    by_cases hfirst : first = dispatcher
    · rw [if_pos (beq_iff_eq.mpr hfirst)]
      simp only [List.mem_cons, exists_eq_or_imp, List.not_mem_nil, false_or] at ih ⊢
      rw [ih]
      constructor
      · exact fun h => ⟨Or.inr h.1, h.2⟩
      · rintro ⟨hip | hip, hne⟩
        · exact absurd (hip.trans hfirst) hne
        · exact ⟨hip, hne⟩
    · rw [if_neg (by simpa using hfirst)]
      simp only [List.modifyHead_cons, List.mem_cons, exists_eq_or_imp] at ih ⊢
      rw [or_assoc, ih]
      constructor
      · rintro (rfl | h)
        · exact ⟨Or.inl rfl, hfirst⟩
        · exact ⟨Or.inr h.1, h.2⟩
      · rintro ⟨hip | hip, hne⟩
        · exact Or.inl hip
        · exact Or.inr ⟨hip, hne⟩

/-- Lists that are no longer than others are the same one after the other only if each is. -/
theorem flatMap_eq_iff {α β : Type} {l : List α} {f g : α → List β} (hle : ∀ x ∈ l, (f x).length ≤ (g x).length) :
    l.flatMap f = l.flatMap g ↔ ∀ x ∈ l, f x = g x := by
  constructor
  · induction l with
    | nil => simp
    | cons x l ih =>
      obtain ⟨hx, hrest⟩ := List.forall_mem_cons.mp hle
      intro hsame
      have hsum : ∀ l : List α, (∀ x ∈ l, (f x).length ≤ (g x).length) → (l.flatMap f).length ≤ (l.flatMap g).length := by
        intro l hl
        induction l with
        | nil => exact Nat.le_refl _
        | cons x l ih =>
          obtain ⟨hx, hl⟩ := List.forall_mem_cons.mp hl
          rw [List.flatMap_cons, List.flatMap_cons, List.length_append, List.length_append]
          exact Nat.add_le_add hx (ih hl)
      have hlength := congrArg List.length hsame
      rw [List.flatMap_cons, List.flatMap_cons, List.length_append, List.length_append] at hlength
      have hle' := hsum l hrest
      obtain ⟨hhead, htail⟩ := List.append_inj hsame (by omega)
      exact List.forall_mem_cons.mpr ⟨hhead, ih hrest htail⟩
  · exact fun h => List.flatMap_congr h

/-- Collapsing runs of equal elements loses no element. -/
theorem mem_destutter {l : List Nat} {n : Nat} : n ∈ l.destutter (· ≠ ·) ↔ n ∈ l := by
  have hfrom : ∀ (l : List Nat) (a : Nat), n ∈ l.destutter' (· ≠ ·) a ↔ n = a ∨ n ∈ l := by
    intro l
    induction l with
    | nil => simp
    | cons b l ih =>
      intro a
      by_cases hne : a ≠ b
      · rw [List.destutter'_cons_pos l hne, List.mem_cons, ih, List.mem_cons]
      · rw [List.destutter'_cons_neg l hne, ih, List.mem_cons, not_not.mp hne, ← or_assoc, or_self]
  cases l with
  | nil => simp
  | cons a l => rw [List.destutter_cons', hfrom, List.mem_cons]

theorem mem_entered {trace : List UInt64} {n : Nat} :
    n ∈ entered handler_vas dispatcher trace ↔ ∃ ip ∈ trace, ip ≠ dispatcher ∧ nearest handler_vas ip = some n := by
  simp only [entered, entered_between, List.mem_flatMap, mem_destutter, List.mem_filterMap]
  constructor
  · rintro ⟨round, hround, ip, hip, hn⟩
    obtain ⟨htrace, hne⟩ := mem_rounds.mp ⟨round, hround, hip⟩
    exact ⟨ip, htrace, hne, hn⟩
  · rintro ⟨ip, htrace, hne, hn⟩
    obtain ⟨round, hround, hip⟩ := mem_rounds.mpr ⟨htrace, hne⟩
    exact ⟨round, hround, ip, hip, hn⟩

theorem mem_sorted {trace : List UInt64} {n : Nat} (h : n ∈ (trace.splitOn dispatcher).flatMap (sorted_between handler_vas)) :
    ∃ start, (start, n) ∈ handler_vas.zipIdx ∧ start.toNat + 256 < 2 ^ 64 := by
  obtain ⟨round, -, hn⟩ := List.mem_flatMap.mp h
  obtain ⟨ip, -, hop⟩ := List.mem_filterMap.mp (SortedSet.mem_collect.mp hn)
  obtain ⟨start, hmem, hwindow, -⟩ := opcode_spec hop
  exact ⟨start, hmem, (window_iff.mp hwindow).2⟩

/-- Where the code finds the nearest handlers, its rounds are no longer than what is entered, and the same exactly
if that ascends. -/
theorem sorted_between_spec {round : List UInt64}
    (hnearest : ∀ ip ∈ round, opcode_for_ip handler_vas ip = nearest handler_vas ip) :
    (sorted_between handler_vas round).length ≤ (entered_between handler_vas round).length ∧
      (sorted_between handler_vas round = entered_between handler_vas round ↔
        (entered_between handler_vas round).Pairwise (· < ·)) := by
  have hsame : round.filterMap (opcode_for_ip handler_vas) = round.filterMap (nearest handler_vas) :=
    List.filterMap_congr hnearest
  rw [sorted_between, hsame, entered_between]
  exact ⟨SortedSet.length_collect_le fun n hn => mem_destutter.mpr hn, SortedSet.collect_eq_iff fun n => mem_destutter⟩

/-- Two entries of the table with one slot are the same. -/
theorem start_eq_of_slot {a b : UInt64} {slot : Nat} (ha : (a, slot) ∈ handler_vas.zipIdx) (hb : (b, slot) ∈ handler_vas.zipIdx) :
    a = b := by
  have ha := List.mem_zipIdx_iff_getElem?.mp ha
  have hb := List.mem_zipIdx_iff_getElem?.mp hb
  exact Option.some.inj (ha.symm.trans hb)

end

/-- The bytecode is the sequence of handlers that the trace enters exactly if the handlers of each round ascend by
their slots, and the window of no handler that is entered ends beyond 2^64. -/
theorem bytecode_in_order_iff (rr : run_result_t) (dispatcher : UInt64) (handler_vas : List UInt64) :
    (∀ max_ops, (trace_bytecode handler_vas dispatcher max_ops rr).bytecode =
        (entered handler_vas dispatcher rr.trace).take max_ops) ↔
      (∀ round ∈ rr.trace.splitOn dispatcher, (entered_between handler_vas round).Pairwise (· < ·)) ∧
        ∀ ip ∈ rr.trace, ip ≠ dispatcher → ∀ start slot, (start, slot) ∈ handler_vas.zipIdx →
          IsNearest handler_vas ip (start, slot) → start.toNat + 256 < 2 ^ 64 := by
  have htakes : (∀ max_ops, (trace_bytecode handler_vas dispatcher max_ops rr).bytecode =
      (entered handler_vas dispatcher rr.trace).take max_ops) ↔
        (rr.trace.splitOn dispatcher).flatMap (sorted_between handler_vas) = entered handler_vas dispatcher rr.trace := by
    simp only [bytecode_eq]
    constructor
    · intro hall
      refine List.ext_getElem? fun i => ?_
      have hi := congrArg (·[i]?) (hall (i + 1))
      simpa using hi
    · exact fun hsame max_ops => by rw [hsame]
  have hrounds : (∀ ip ∈ rr.trace, ip ≠ dispatcher → ∀ start slot, (start, slot) ∈ handler_vas.zipIdx →
      IsNearest handler_vas ip (start, slot) → start.toNat + 256 < 2 ^ 64) →
        ((rr.trace.splitOn dispatcher).flatMap (sorted_between handler_vas) = entered handler_vas dispatcher rr.trace ↔
          ∀ round ∈ rr.trace.splitOn dispatcher, (entered_between handler_vas round).Pairwise (· < ·)) := by
    intro hfits
    have hspec : ∀ round ∈ rr.trace.splitOn dispatcher, _ := fun round hround =>
      sorted_between_spec fun ip hip =>
        have ⟨htrace, hne⟩ := mem_rounds.mp ⟨round, hround, hip⟩
        opcode_eq_nearest (hfits ip htrace hne)
    rw [entered, flatMap_eq_iff fun round hround => (hspec round hround).1]
    exact forall₂_congr fun round hround => (hspec round hround).2
  rw [htakes]
  constructor
  · intro hsame
    have hfits : ∀ ip ∈ rr.trace, ip ≠ dispatcher → ∀ start slot, (start, slot) ∈ handler_vas.zipIdx →
        IsNearest handler_vas ip (start, slot) → start.toNat + 256 < 2 ^ 64 := by
      intro ip hip hne start slot hmem hnearest
      have hentered := mem_entered.mpr ⟨ip, hip, hne, nearest_eq_some.mpr ⟨start, hmem, hnearest⟩⟩
      rw [← hsame] at hentered
      obtain ⟨start', hmem', hend⟩ := mem_sorted hentered
      rwa [start_eq_of_slot hmem hmem']
    exact ⟨(hrounds hfits).mp hsame, hfits⟩
  · rintro ⟨hascend, hfits⟩
    exact (hrounds hfits).mpr hascend

/-- A trace that goes through two handlers, the second one first, without the dispatcher in between. -/
theorem order_is_lost :
    ∃ rr dispatcher handler_vas, (trace_bytecode handler_vas dispatcher 512 rr).bytecode ≠
      (entered handler_vas dispatcher rr.trace).take 512 :=
  ⟨{ ok := true, trace := [0x1000, 0x3000, 0x2000] }, 0x1000, [0x2000, 0x3000], by decide⟩

end slop.core.analysis.devirt
