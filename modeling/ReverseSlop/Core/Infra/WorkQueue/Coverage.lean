import ReverseSlop.Core.Infra.WorkQueue.Staffing

namespace slop.core.infra.pool

def op_t.is_cancel : op_t → Bool
  | .cancel => true
  | _ => false

/-- The token of the call is never cancelled, and `stop` keeps the helpers that it has let in. -/
def Uncancelled (s : pool_t) (op : op_t) : Prop := op.is_cancel = false ∧ Drains s op

instance (s : pool_t) (op : op_t) : Decidable (Uncancelled s op) := inferInstanceAs (Decidable (_ ∧ _))

/-- The call is empty or runs in the serial fallback; or its count does not vanish in the cast
to 32 bits, and the index stays within 64 bits when every helper has claimed one too many. -/
def Counted (count : UInt64) (max_workers num_workers : UInt32) : Prop :=
  count = 0 ∨ max_slots max_workers num_workers ≤ 1 ∨ count = 1 ∨
    (count.toUInt32 ≠ 0 ∧ count.toNat + spawn_of count (max_slots max_workers num_workers) ≤ 2 ^ 64)

/-- Nothing of the call is left but the caller's wait. -/
def pool_t.Settled (s : pool_t) : Prop :=
  s.caller ∈ [caller_t.test, .block, .blocked] ∧ s.loops = [] ∧ s.helper_queued = false

/-- The body was called at most once for each index and for no other; a helper that is queued has
a worker to run it; when the call is over, or nothing of it is left but the wait, the body was
called for every index, and when it is over all these calls have returned. -/
structure pool_t.Covers (s : pool_t) : Prop where
  once : s.calls.Nodup
  below : ∀ i ∈ s.calls, i < s.count
  served : s.helper_queued = true → 0 < s.workers
  all : s.caller = .returned ∨ s.Settled → ∀ i < s.count, i ∈ s.calls
  returned : s.caller = .returned → ∀ l ∈ s.loops, ∀ i, l.pc ≠ .body i

private theorem covers_of_range {s : pool_t} (hcalls : s.calls = List.range s.calls.length) (hcount : s.calls.length ≤ s.count)
    (hserved : s.helper_queued = true → 0 < s.workers) (hall : s.caller = .returned ∨ s.Settled → s.calls.length = s.count)
    (hreturned : s.caller = .returned → ∀ l ∈ s.loops, ∀ i, l.pc ≠ .body i) : s.Covers := by
  refine ⟨?_, fun i hi => ?_, hserved, fun hover i hi => ?_, hreturned⟩
  · rw [hcalls]
    exact List.nodup_range
  · rw [hcalls, List.mem_range] at hi
    omega
  · rw [hcalls, List.mem_range, hall hover]
    exact hi

/-- The loop has found no index left. -/
def loop_t.out (l : loop_t) : Bool := l.pc = .done

/-- The claims that found no index left. -/
def pool_t.failed (s : pool_t) : Nat := s.workers_done + s.loops.countP loop_t.out

/-- The indices are called in order, and every claim is one of these calls or has failed. -/
structure Covering (s : pool_t) : Prop where
  accounts : Accounts s
  cancelled : s.cancelled = false
  room : s.count + s.spawn ≤ 2 ^ 64
  calls : s.calls = List.range s.calls.length
  count : s.calls.length ≤ s.count
  next : 0 < s.spawn → s.next_index = (s.calls.length + s.failed) % 2 ^ 64
  full : 0 < s.failed → s.calls.length = s.count
  serial : ∀ i, s.caller = .serial i → i = s.calls.length
  serial_body : ∀ i, s.caller = .serial_body i → i + 1 = s.calls.length
  alone : s.spawn = 0 → s.caller.in_serial ∨ s.calls.length = s.count

private theorem spawn_pos {count : UInt64} {n : UInt32} (hparallel : ¬ (n ≤ 1 ∨ count = 1)) (hcast : count.toUInt32 ≠ 0) :
    0 < spawn_of count n := by
  have hn : ¬ n ≤ 1 := fun hn => hparallel (Or.inl hn)
  have hslots : 1 < n.toNat := UInt32.lt_iff_toNat_lt.mp (UInt32.not_le.mp hn)
  have hcount : count.toUInt32.toNat ≠ 0 := fun hzero => hcast (UInt32.toNat_inj.mp hzero)
  rw [spawn_of]
  omega

private theorem Covering.init {count : UInt64} {max_workers num_workers : UInt32}
    (hcounted : Counted count max_workers num_workers) : Covering (parallel_for count max_workers num_workers) := by
  have haccounts := Accounts.init count max_workers num_workers
  have hlt := count.toNat_lt
  rw [parallel_for] at haccounts ⊢
  simp only at haccounts ⊢
  split
  · rename_i hzero
    rw [if_pos hzero] at haccounts
    refine ⟨haccounts, rfl, Nat.le_of_lt hlt, rfl, Nat.zero_le _, fun _ => rfl, ?_, ?_, ?_, fun _ => Or.inr ?_⟩
    · exact fun hpos => absurd hpos (Nat.lt_irrefl 0)
    · exact fun i hi => (by cases hi)
    · exact fun i hi => (by cases hi)
    · rw [hzero]
      rfl
  rename_i hnonzero
  rw [if_neg hnonzero] at haccounts
  split
  · rename_i hserial
    rw [if_pos hserial] at haccounts
    refine ⟨haccounts, rfl, Nat.le_of_lt hlt, rfl, Nat.zero_le _, fun _ => rfl, ?_, ?_, ?_, fun _ => Or.inl trivial⟩
    · exact fun hpos => absurd hpos (Nat.lt_irrefl 0)
    · intro i hi
      cases hi
      rfl
    · exact fun i hi => (by cases hi)
  · rename_i hparallel
    rw [if_neg hparallel] at haccounts
    obtain hzero | hslots | hone | ⟨hcast, hroom⟩ := hcounted
    · exact absurd hzero hnonzero
    · exact absurd (Or.inl hslots) hparallel
    · exact absurd (Or.inr hone) hparallel
    have hserial := next_slot_not_serial (spawn_of count (max_slots max_workers num_workers)) 0
    refine ⟨haccounts, rfl, hroom, rfl, Nat.zero_le _, fun _ => rfl, ?_, ?_, ?_, fun hspawn => ?_⟩
    · exact fun hpos => absurd hpos (Nat.lt_irrefl 0)
    · intro i hi
      simp only at hi
      rw [hi] at hserial
      exact absurd trivial hserial
    · intro i hi
      simp only at hi
      rw [hi] at hserial
      exact absurd trivial hserial
    · exact absurd hspawn (Nat.ne_of_gt (spawn_pos hparallel hcast))

section

variable {s s' : pool_t} {l : loop_t}

/-- A step that neither calls the body nor claims an index. -/
theorem Covering.keep {op : op_t} (h : Covering s) (hstep : s.step op = some s') (hcancelled : s'.cancelled = s.cancelled)
    (hcalls : s'.calls = s.calls) (hnext : s'.next_index = s.next_index) (hfailed : s'.failed = s.failed)
    (hcaller : s'.caller = s.caller ∨ ¬ s.caller.in_serial ∧ ¬ s'.caller.in_serial) : Covering s' := by
  obtain ⟨hspawn, hcount⟩ := step_spawn hstep
  have haccounts := h.accounts.step hstep
  refine ⟨haccounts, hcancelled.trans h.cancelled, ?_, ?_, ?_, ?_, ?_, ?_, ?_, ?_⟩
  · rw [hcount, hspawn]
    exact h.room
  · rw [hcalls]
    exact h.calls
  · rw [hcalls, hcount]
    exact h.count
  · rw [hcalls, hnext, hfailed, hspawn]
    exact h.next
  · rw [hcalls, hfailed, hcount]
    exact h.full
  · intro i hi
    rw [hcalls]
    obtain hsame | ⟨-, hnot⟩ := hcaller
    · exact h.serial i (hsame.symm.trans hi)
    · rw [hi] at hnot
      exact absurd trivial hnot
  · intro i hi
    rw [hcalls]
    obtain hsame | ⟨-, hnot⟩ := hcaller
    · exact h.serial_body i (hsame.symm.trans hi)
    · rw [hi] at hnot
      exact absurd trivial hnot
  · rw [hcalls, hspawn, hcount]
    intro hnone
    obtain hsame | ⟨hnot, -⟩ := hcaller
    · rw [hsame]
      exact h.alone hnone
    · exact Or.inr ((h.alone hnone).resolve_left hnot)

/-- In the serial fallback the index is the number of calls. -/
theorem Covering.serial_call {i : Nat} (h : Covering s) (hstep : s.step (.serial_call i) = some s') : Covering s' := by
  have haccounts := h.accounts.step hstep
  obtain ⟨hcaller, hs'⟩ := Option.ite_none_right_eq_some.mp hstep
  have hspawn : s.spawn = 0 := h.accounts.serial (by rw [hcaller]; trivial)
  have hcalls := h.calls
  have hindex : i = s.calls.length := h.serial i hcaller
  have hloops := h.accounts.no_loops hspawn
  have hcount := h.count
  split at hs'
  · rename_i hindex'
    cases hs'
    have hlength : (s.calls ++ [i]).length = s.calls.length + 1 := List.length_append
    refine ⟨haccounts, h.cancelled, h.room, ?_, ?_, ?_, ?_, nofun, ?_, fun _ => Or.inl trivial⟩
    · rw [hlength, List.range_succ, ← hcalls, hindex]
    · simp only [hlength]
      omega
    · intro hpos
      exact absurd hpos (by rw [hspawn]; exact Nat.lt_irrefl 0)
    · intro hfailed
      have hfull := h.full hfailed
      omega
    · intro j hj
      cases hj
      rw [hlength, hindex]
  · rename_i hend
    cases hs'
    have hlength : s.calls.length = s.count := by
      rw [h.cancelled] at hend
      simp only [and_true] at hend
      omega
    exact ⟨haccounts, h.cancelled, h.room, hcalls, hcount, h.next, h.full, nofun, nofun, fun _ => Or.inr hlength⟩

private theorem Covering.serial_return {i : Nat} (h : Covering s) (hstep : s.step (.serial_return i) = some s') :
    Covering s' := by
  have haccounts := h.accounts.step hstep
  obtain ⟨hcaller, hs'⟩ := Option.ite_none_right_eq_some.mp hstep
  cases hs'
  refine ⟨haccounts, h.cancelled, h.room, h.calls, h.count, h.next, h.full, ?_, nofun, fun _ => Or.inl trivial⟩
  intro j hj
  cases hj
  exact h.serial_body i hcaller

/-- A step of a loop changes the count only with the loop's own part in it. -/
theorem failed_move {pc : loop_pc_t} (hl : l ∈ s.loops) :
    (s.move l pc).failed + l.out.toNat = s.failed + (loop_t.out { l with pc }).toNat := by
  have hswap := Swap.countP_swap (b := { l with pc }) loop_t.out hl
  simp only [pool_t.failed, pool_t.move]
  omega

private theorem failed_move_same {pc : loop_pc_t} (hl : l ∈ s.loops) (hsame : l.out = loop_t.out { l with pc }) :
    (s.move l pc).failed = s.failed := by
  have hmove : (s.move l pc).failed + l.out.toNat = s.failed + (loop_t.out { l with pc }).toNat := failed_move hl
  rw [hsame] at hmove
  exact Nat.add_right_cancel hmove

private theorem failed_cons {slot : Nat} {inline : Bool} :
    s.workers_done + ({ slot, inline } :: s.loops).countP loop_t.out = s.failed := by
  rw [List.countP_cons_of_neg Bool.false_ne_true]
  rfl

private theorem failed_done (hl : l ∈ s.loops) (hpc : l.pc = .done) :
    s.workers_done + 1 + (s.move l .notify).loops.countP loop_t.out = s.failed := by
  have hmove : (s.move l .notify).failed + l.out.toNat = s.failed := failed_move hl
  have hout : l.out = true := by rw [loop_t.out, hpc]; rfl
  rw [hout, Bool.toNat_true] at hmove
  rw [← hmove, pool_t.failed, Nat.add_right_comm]
  rfl

private theorem failed_erase (hl : l ∈ s.loops) (hpc : l.pc = .notify) :
    s.workers_done + (s.loops.erase l).countP loop_t.out = s.failed := by
  have herase := Swap.countP_erase loop_t.out hl
  have hout : l.out = false := by rw [loop_t.out, hpc]; rfl
  rw [hout, Bool.toNat_false, Nat.add_zero] at herase
  rw [herase, pool_t.failed]

/-- A claim that finds no index left is counted. -/
theorem failed_move_done (hl : l ∈ s.loops) (hpc : l.pc = .claim) : (s.move l .done).failed = s.failed + 1 := by
  have hmove : (s.move l .done).failed + l.out.toNat = s.failed + 1 := failed_move hl
  have hout : l.out = false := by rw [loop_t.out, hpc]; rfl
  rw [hout, Bool.toNat_false, Nat.add_zero] at hmove
  exact hmove

/-- The claims that can fail are as many as the helpers. -/
theorem Accounts.failed_le (h : Accounts s) : s.failed ≤ s.spawn := by
  have hout : s.loops.countP loop_t.out ≤ s.loops.countP loop_t.uncounted := by
    apply List.countP_mono_left
    intro l _ hl
    rw [loop_t.uncounted, of_decide_eq_true hl]
    rfl
  have htotal := h.total
  rw [pool_t.failed]
  omega

/-- The index does not wrap around as long as a loop is left that can claim. -/
theorem Covering.next_eq (h : Covering s) (hl : l ∈ s.loops) (hpc : l.pc = .claim) :
    s.next_index = s.calls.length + s.failed ∧ s.failed < s.spawn := by
  have hmoved : Accounts (s.move l .done) := h.accounts.move hl (by rw [loop_t.uncounted, hpc]; rfl)
  have hle := hmoved.failed_le
  rw [failed_move_done hl hpc] at hle
  have hspawn : s.failed < s.spawn := hle
  have hcount := h.count
  have hroom := h.room
  refine ⟨?_, hspawn⟩
  rw [h.next (Nat.lt_of_le_of_lt (Nat.zero_le _) hspawn), Nat.mod_eq_of_lt]
  omega

/-- A claim takes the next index, if one is left. -/
theorem Covering.claim (h : Covering s) (hstep : s.step (.claim l) = some s') : Covering s' := by
  have haccounts := h.accounts.step hstep
  obtain ⟨⟨hl, hpc⟩, hs'⟩ := Option.ite_none_right_eq_some.mp hstep
  obtain ⟨hindex, hlt⟩ := h.next_eq hl hpc
  have hspawn : s.spawn ≠ 0 := Nat.ne_of_gt (Nat.lt_of_le_of_lt (Nat.zero_le _) hlt)
  have hcount := h.count
  have hfull := h.full
  rw [if_neg (by rw [h.cancelled]; exact Bool.false_ne_true)] at hs'
  by_cases hend : s.count ≤ s.next_index
  · rw [if_pos hend] at hs'
    cases hs'
    have hlength : s.calls.length = s.count := by omega
    refine ⟨haccounts, h.cancelled, h.room, h.calls, hcount, fun _ => ?_, fun _ => hlength, h.serial, h.serial_body, ?_⟩
    · change (s.next_index + 1) % 2 ^ 64 = (s.calls.length + (s.move l .done).failed) % 2 ^ 64
      rw [failed_move_done hl hpc, hindex, Nat.add_assoc]
    · exact fun hnone => absurd hnone hspawn
  · rw [if_neg hend] at hs'
    cases hs'
    have hnone : s.failed = 0 := by omega
    have hnext : s.next_index = s.calls.length := by omega
    have hlength : (s.calls ++ [s.next_index]).length = s.calls.length + 1 := List.length_append
    have hfailed : (s.move l (.body s.next_index)).failed = 0 :=
      (failed_move_same hl (by rw [loop_t.out, hpc]; rfl)).trans hnone
    have hparallel : ¬ s.caller.in_serial := fun hserial => hspawn (h.accounts.serial hserial)
    refine ⟨haccounts, h.cancelled, h.room, ?_, ?_, fun _ => ?_, ?_, ?_, ?_, ?_⟩
    · rw [hlength, List.range_succ, ← h.calls, hnext]
    · simp only [hlength, pool_t.move]
      omega
    · change (s.next_index + 1) % 2 ^ 64 = ((s.calls ++ [s.next_index]).length + (s.move l (.body s.next_index)).failed) % 2 ^ 64
      rw [hfailed, hlength, hnext, Nat.add_zero]
    · exact fun hpos => absurd hpos (Nat.not_lt_of_le (Nat.le_of_eq hfailed))
    · intro i hi
      exact absurd (hi ▸ trivial) hparallel
    · intro i hi
      exact absurd (hi ▸ trivial) hparallel
    · exact fun hnone => absurd hnone hspawn

private theorem Covering.step {op : op_t} (h : Covering s) (hok : op.is_cancel = false) (hstep : s.step op = some s') :
    Covering s' := by
  have hkeep := h.keep hstep
  cases op with
  | serial_call i => exact h.serial_call hstep
  | serial_return i => exact h.serial_return hstep
  | submit_test slot =>
    obtain ⟨hcaller, hs'⟩ := Option.ite_none_right_eq_some.mp hstep
    have hparallel : ¬ s.caller.in_serial := by rw [hcaller]; exact id
    split at hs' <;> cases hs'
    · exact hkeep rfl rfl rfl failed_cons (Or.inr ⟨hparallel, id⟩)
    · exact hkeep rfl rfl rfl rfl (Or.inr ⟨hparallel, id⟩)
  | submit_push slot =>
    obtain ⟨hcaller, hs'⟩ := Option.ite_none_right_eq_some.mp hstep
    have hparallel : ¬ s.caller.in_serial := by rw [hcaller]; exact id
    split at hs' <;> cases hs'
    · exact hkeep rfl rfl rfl failed_cons (Or.inr ⟨hparallel, id⟩)
    · exact hkeep rfl rfl rfl rfl (Or.inr ⟨hparallel, next_slot_not_serial _ _⟩)
  | pop =>
    obtain ⟨-, htake⟩ := Option.ite_none_right_eq_some.mp hstep
    split at htake <;> cases htake
    · exact hkeep rfl rfl rfl failed_cons (Or.inl rfl)
    · exact hkeep rfl rfl rfl rfl (Or.inl rfl)
  | claim l => exact h.claim hstep
  | body_return l i =>
    obtain ⟨⟨hl, hpc⟩, hs'⟩ := Option.ite_none_right_eq_some.mp hstep
    cases hs'
    exact hkeep rfl rfl rfl (failed_move_same hl (by rw [loop_t.out, hpc]; rfl)) (Or.inl rfl)
  | done l =>
    obtain ⟨⟨hl, hpc⟩, hs'⟩ := Option.ite_none_right_eq_some.mp hstep
    cases hs'
    exact hkeep rfl rfl rfl (failed_done hl hpc) (Or.inl rfl)
  | notify l =>
    obtain ⟨⟨hl, hpc⟩, hs'⟩ := Option.ite_none_right_eq_some.mp hstep
    cases hs'
    refine hkeep rfl rfl rfl (failed_erase hl hpc) ?_
    simp only
    split
    · rename_i hinline
      refine Or.inr ⟨?_, next_slot_not_serial _ _⟩
      rw [h.accounts.inline l hl hinline]
      exact id
    split
    · rename_i hblocked
      refine Or.inr ⟨?_, id⟩
      rw [hblocked]
      exact id
    · exact Or.inl rfl
  | wait_test =>
    obtain ⟨hcaller, hs'⟩ := Option.ite_none_right_eq_some.mp hstep
    cases hs'
    refine hkeep rfl rfl rfl rfl (Or.inr ⟨by rw [hcaller]; exact id, ?_⟩)
    simp only
    split <;> exact id
  | block =>
    obtain ⟨hcaller, hs'⟩ := Option.ite_none_right_eq_some.mp hstep
    cases hs'
    exact hkeep rfl rfl rfl rfl (Or.inr ⟨by rw [hcaller]; exact id, id⟩)
  | wake =>
    obtain ⟨hcaller, hs'⟩ := Option.ite_none_right_eq_some.mp hstep
    cases hs'
    exact hkeep rfl rfl rfl rfl (Or.inr ⟨by rw [hcaller]; exact id, id⟩)
  | cancel => cases hok
  | stop =>
    cases hstep
    exact hkeep rfl rfl rfl rfl (Or.inl rfl)
  | _ =>
    obtain ⟨-, hs'⟩ := Option.ite_none_right_eq_some.mp hstep
    cases hs'
    exact hkeep rfl rfl rfl rfl (Or.inl rfl)

/-- With nothing left but the wait of the caller, all helpers are counted. -/
theorem Accounts.settled (h : Accounts s) (hdiscarded : s.discarded = []) (hsettled : s.Settled) :
    ¬ s.caller.in_serial ∧ s.spawn ≤ s.workers_done := by
  obtain ⟨hcaller, hloops, hqueue⟩ := hsettled
  have htotal := h.total
  rw [hloops, countP_queue_eq_zero hqueue, hdiscarded] at htotal
  simp only [List.mem_cons, List.not_mem_nil, or_false] at hcaller
  obtain hcaller | hcaller | hcaller := hcaller
  · rw [hcaller] at htotal ⊢
    exact ⟨id, Nat.le_of_eq htotal.symm⟩
  · rw [hcaller] at htotal ⊢
    exact ⟨id, Nat.le_of_eq htotal.symm⟩
  · rw [hcaller] at htotal ⊢
    exact ⟨id, Nat.le_of_eq htotal.symm⟩

private theorem Covering.covers {workers : Nat} (h : Covering s) (hstaffed : Staffed workers s) : s.Covers := by
  apply covers_of_range h.calls h.count hstaffed.served
  · intro hover
    have hended : ¬ s.caller.in_serial ∧ s.spawn ≤ s.workers_done := by
      obtain hreturned | hsettled := hover
      · exact ⟨by rw [hreturned]; exact id, h.accounts.returned hreturned⟩
      · exact h.accounts.settled hstaffed.discarded hsettled
    by_cases hspawn : s.spawn = 0
    · exact (h.alone hspawn).resolve_left hended.1
    · apply h.full
      rw [pool_t.failed]
      omega
  · intro hreturned l hl i hbody
    obtain ⟨hloops, -⟩ := h.accounts.all_done (h.accounts.returned hreturned)
    exact absurd (hbody.symm.trans (hloops l hl)) nofun

end

/-! Counts that the casts or the counter cannot carry. -/

/-- A run of a call whose token is not cancelled. -/
def Reaches : pool_t → pool_t → Prop := Relation.ReflTransGen (Transition.Step Uncancelled pool_t.step)

instance : Trans Reaches Reaches Reaches := ⟨Relation.ReflTransGen.trans⟩

section

variable {count : UInt64} {num_workers : UInt32} {spawn k j : Nat}

/-- The caller of a stopped pool in the loop of the first helper, with all indices below `k` called. -/
def counting (count : UInt64) (num_workers : UInt32) (spawn k : Nat) : pool_t :=
  { idle := num_workers.toNat, count := count.toNat, stopping := true, spawn, next_index := k, caller := .inline 0,
    loops := [{ slot := 0, inline := true }], calls := List.range k }

/-- The caller of a stopped pool with all indices called and `j` helpers done. -/
def counted (count : UInt64) (num_workers : UInt32) (spawn j : Nat) : pool_t :=
  { idle := num_workers.toNat, count := count.toNat, stopping := true, spawn, next_index := (count.toNat + j) % 2 ^ 64,
    workers_done := j, caller := next_slot spawn j, calls := List.range count.toNat }

private theorem step_claim_body {s : pool_t} {l : loop_t} (hl : l ∈ s.loops) (hpc : l.pc = .claim) (hcancelled : s.cancelled = false)
    (hindex : s.next_index < s.count) :
    s.step (.claim l) =
      some
        { s.move l (.body s.next_index) with
          next_index := (s.next_index + 1) % 2 ^ 64
          calls := s.calls ++ [s.next_index] } := by
  rw [pool_t.step, if_pos ⟨hl, hpc⟩, if_neg (by rw [hcancelled]; exact Bool.false_ne_true),
    if_neg (Nat.not_le.mpr hindex)]

private theorem step_claim_end {s : pool_t} {l : loop_t} (hl : l ∈ s.loops) (hpc : l.pc = .claim) (hcancelled : s.cancelled = false)
    (hindex : s.count ≤ s.next_index) :
    s.step (.claim l) = some { s.move l .done with next_index := (s.next_index + 1) % 2 ^ 64 } := by
  rw [pool_t.step, if_pos ⟨hl, hpc⟩, if_neg (by rw [hcancelled]; exact Bool.false_ne_true), if_pos hindex]

private theorem swap_singleton (a b : loop_t) : Swap.swap [a] a b = [b] := by
  rw [Swap.swap, List.erase_cons_head]

private theorem counting_step (hk : k < count.toNat) :
    Reaches (counting count num_workers spawn k) (counting count num_workers spawn (k + 1)) := by
  have hlt := count.toNat_lt
  have hnext : (k + 1) % 2 ^ 64 = k + 1 := Nat.mod_eq_of_lt (by omega)
  have hclaim : (counting count num_workers spawn k).step (.claim ⟨0, .claim, true⟩) =
      some { counting count num_workers spawn (k + 1) with loops := [⟨0, .body k, true⟩] } := by
    rw [step_claim_body (List.mem_singleton.mpr rfl) rfl rfl hk]
    simp only [counting, pool_t.move, swap_singleton, hnext, List.range_succ]
  refine .head ⟨.claim _, ⟨rfl, trivial⟩, hclaim⟩ (.single ⟨.body_return ⟨0, .body k, true⟩ k, ⟨rfl, trivial⟩, ?_⟩)
  rw [pool_t.step, if_pos ⟨List.mem_singleton.mpr rfl, rfl⟩]
  simp only [counting, pool_t.move, swap_singleton]

private theorem counting_reaches (hk : k ≤ count.toNat) :
    Reaches (counting count num_workers spawn 0) (counting count num_workers spawn k) := by
  induction k with
  | zero => exact Relation.ReflTransGen.refl
  | succ k ih => exact (ih (by omega)).trans (counting_step hk)

/-- A loop of the caller that finds no index left is counted, and the caller goes on. -/
theorem inline_ends {s : pool_t} (hloops : s.loops = [⟨j, .claim, true⟩]) (hcancelled : s.cancelled = false)
    (hindex : s.count ≤ s.next_index) :
    Reaches s
      { s with
        next_index := (s.next_index + 1) % 2 ^ 64
        workers_done := s.workers_done + 1
        loops := []
        caller := next_slot s.spawn (j + 1) } := by
  have hclaim : s.step (.claim ⟨j, .claim, true⟩) =
      some { s with next_index := (s.next_index + 1) % 2 ^ 64, loops := [⟨j, .done, true⟩] } := by
    rw [step_claim_end (hloops ▸ List.mem_singleton.mpr rfl) rfl hcancelled hindex, pool_t.move, hloops, swap_singleton]
  have hdone : pool_t.step { s with next_index := (s.next_index + 1) % 2 ^ 64, loops := [⟨j, .done, true⟩] }
      (.done ⟨j, .done, true⟩) =
      some
        { s with
          next_index := (s.next_index + 1) % 2 ^ 64
          workers_done := s.workers_done + 1
          loops := [⟨j, .notify, true⟩] } := by
    rw [pool_t.step, if_pos ⟨List.mem_singleton.mpr rfl, rfl⟩, pool_t.move, swap_singleton]
  refine .head ⟨.claim _, ⟨rfl, trivial⟩, hclaim⟩ (.head ⟨.done _, ⟨rfl, trivial⟩, hdone⟩
    (.single ⟨.notify ⟨j, .notify, true⟩, ⟨rfl, trivial⟩, ?_⟩))
  rw [pool_t.step, if_pos ⟨List.mem_singleton.mpr rfl, rfl⟩]
  simp only [List.erase_cons_head, if_true]

/-- The first loop goes through all indices. -/
theorem counting_counted :
    Reaches (counting count num_workers spawn count.toNat) (counted count num_workers spawn 1) :=
  inline_ends rfl rfl (Nat.le_refl _)

/-- Every further loop claims one index that is too large. -/
theorem counted_step (hj : j < spawn) (hroom : count.toNat + j < 2 ^ 64) :
    Reaches (counted count num_workers spawn j) (counted count num_workers spawn (j + 1)) := by
  have hindex : (count.toNat + j) % 2 ^ 64 = count.toNat + j := Nat.mod_eq_of_lt hroom
  have hslot : next_slot spawn j = .submit j := if_pos hj
  have hreject : (counted count num_workers spawn j).step (.submit_test j) =
      some ((counted count num_workers spawn j).reject j) := if_pos hslot
  have hnext : ((count.toNat + j) % 2 ^ 64 + 1) % 2 ^ 64 = (count.toNat + (j + 1)) % 2 ^ 64 := by
    rw [hindex, Nat.add_assoc]
  have hend : count.toNat ≤ (count.toNat + j) % 2 ^ 64 := by
    rw [hindex]
    exact Nat.le_add_right _ _
  have hends := inline_ends (s := (counted count num_workers spawn j).reject j) rfl rfl hend
  simp only [pool_t.reject, counted, hnext] at hends
  exact .head ⟨.submit_test j, ⟨rfl, trivial⟩, hreject⟩ hends

private theorem counted_reaches (hj : j < spawn) (hroom : count.toNat + j < 2 ^ 64) :
    Reaches (counted count num_workers spawn 1) (counted count num_workers spawn (j + 1)) := by
  induction j with
  | zero => exact Relation.ReflTransGen.refl
  | succ j ih => exact (ih (by omega) (by omega)).trans (counted_step hj hroom)

/-- Behind the last index of 64 bits comes the first one again. -/
def wrapped (count : UInt64) (num_workers : UInt32) (spawn j : Nat) : pool_t :=
  { counted count num_workers spawn j with
    caller := .inline j
    loops := [{ slot := j, pc := .body 0, inline := true }]
    next_index := 1
    calls := List.range count.toNat ++ [0] }

private theorem counted_wrapped (hj : j < spawn) (hcount : 0 < count.toNat) (hroom : count.toNat + j = 2 ^ 64) :
    Reaches (counted count num_workers spawn j) (wrapped count num_workers spawn j) := by
  have hindex : (count.toNat + j) % 2 ^ 64 = 0 := by rw [hroom, Nat.mod_self]
  have hnext : ((count.toNat + j) % 2 ^ 64 + 1) % 2 ^ 64 = 1 := by omega
  have hslot : next_slot spawn j = .submit j := if_pos hj
  have hreject : (counted count num_workers spawn j).step (.submit_test j) =
      some ((counted count num_workers spawn j).reject j) := if_pos hslot
  refine .head ⟨.submit_test j, ⟨rfl, trivial⟩, hreject⟩ (.single ⟨.claim ⟨j, .claim, true⟩, ⟨rfl, trivial⟩, ?_⟩)
  rw [step_claim_body (List.mem_singleton.mpr rfl) rfl rfl (Nat.lt_of_le_of_lt (Nat.le_of_eq hindex) hcount)]
  simp only [counted, wrapped, pool_t.reject, pool_t.move, swap_singleton]
  rw [hnext, hindex]

private theorem wrapped_not_covers (hcount : 0 < count.toNat) : ¬ (wrapped count num_workers spawn j).Covers := by
  intro hcovers
  obtain ⟨-, -, hdisjoint⟩ := List.nodup_append.mp hcovers.once
  exact hdisjoint 0 (List.mem_range.mpr hcount) 0 (List.mem_singleton.mpr rfl) rfl

/-- The pool stops, and no helper is let in. -/
theorem parallel_for_counting {max_workers : UInt32} (hcount : count ≠ 0)
    (hparallel : ¬ (max_slots max_workers num_workers ≤ 1 ∨ count = 1))
    (hspawn : 0 < spawn_of count (max_slots max_workers num_workers)) :
    Reaches (parallel_for count max_workers num_workers)
      (counting count num_workers (spawn_of count (max_slots max_workers num_workers)) 0) := by
  have hslot : next_slot (spawn_of count (max_slots max_workers num_workers)) 0 = .submit 0 := if_pos hspawn
  rw [parallel_for]
  simp only [if_neg hcount, if_neg hparallel]
  exact .head ⟨.stop, ⟨rfl, next_slot_not_pushing _ _⟩, rfl⟩ (.single ⟨.submit_test 0, ⟨rfl, trivial⟩, if_pos hslot⟩)

variable {max_workers : UInt32}

/-- Without helpers the caller waits for nothing. -/
theorem cast_not_covers (hcount : count ≠ 0) (hparallel : ¬ (max_slots max_workers num_workers ≤ 1 ∨ count = 1))
    (hcast : count.toUInt32 = 0) : ¬ (parallel_for count max_workers num_workers).Covers := by
  intro hcovers
  have hspawn : spawn_of count (max_slots max_workers num_workers) = 0 := by
    rw [spawn_of, hcast]
    exact Nat.min_zero _
  have hpos : 0 < count.toNat := Nat.pos_of_ne_zero fun hzero => hcount (UInt64.toNat_inj.mp hzero)
  rw [parallel_for] at hcovers
  simp only [if_neg hcount, if_neg hparallel, hspawn] at hcovers
  have hsettled : pool_t.Settled
      { idle := num_workers.toNat, count := count.toNat, spawn := 0, caller := next_slot 0 0 } :=
    ⟨List.mem_cons_self, rfl, rfl⟩
  exact absurd (hcovers.all (Or.inr hsettled) 0 hpos) List.not_mem_nil

/-- Some helper claims an index behind the last one of 64 bits. -/
theorem parallel_for_wrapped (hcount : count ≠ 0)
    (hparallel : ¬ (max_slots max_workers num_workers ≤ 1 ∨ count = 1))
    (hspawn : 2 ^ 64 < count.toNat + spawn_of count (max_slots max_workers num_workers)) :
    ∃ spawn j, Reaches (parallel_for count max_workers num_workers) (wrapped count num_workers spawn j) := by
  have hlt := count.toNat_lt
  have hpos : 0 < count.toNat := Nat.pos_of_ne_zero fun hzero => hcount (UInt64.toNat_inj.mp hzero)
  have hstart : Reaches (parallel_for count max_workers num_workers) (counting count num_workers _ 0) :=
    parallel_for_counting hcount hparallel (by omega)
  obtain ⟨j, hj⟩ : ∃ j, count.toNat + (j + 1) = 2 ^ 64 := ⟨2 ^ 64 - count.toNat - 1, by omega⟩
  refine ⟨spawn_of count (max_slots max_workers num_workers), j + 1, ?_⟩
  calc
    Reaches _ (counting count num_workers _ 0) := hstart
    Reaches _ (counting count num_workers _ count.toNat) := counting_reaches (Nat.le_refl _)
    Reaches _ (counted count num_workers _ 1) := counting_counted
    Reaches _ (counted count num_workers _ (j + 1)) := counted_reaches (by omega) (by omega)
    Reaches _ (wrapped count num_workers _ (j + 1)) := counted_wrapped (by omega) hpos hj

end

/-- The body is called exactly once for each index before the call returns, in every run of a
call that is not cancelled and whose helpers are not discarded, if and only if the casts and
the counter carry its count. -/
theorem covers_iff_counted (count : UInt64) (max_workers num_workers : UInt32) :
    (∀ s, Relation.ReflTransGen (Transition.Step Uncancelled pool_t.step) (parallel_for count max_workers num_workers) s →
      s.Covers) ↔ Counted count max_workers num_workers := by
  constructor
  · intro hcovers
    by_cases hcount : count = 0
    · exact Or.inl hcount
    by_cases hslots : max_slots max_workers num_workers ≤ 1
    · exact Or.inr (Or.inl hslots)
    by_cases hone : count = 1
    · exact Or.inr (Or.inr (Or.inl hone))
    have hparallel : ¬ (max_slots max_workers num_workers ≤ 1 ∨ count = 1) := fun h => h.elim hslots hone
    refine Or.inr (Or.inr (Or.inr ⟨fun hcast => ?_, Nat.not_lt.mp fun hroom => ?_⟩))
    · exact cast_not_covers hcount hparallel hcast (hcovers _ Relation.ReflTransGen.refl)
    · have hpos : 0 < count.toNat := Nat.pos_of_ne_zero fun hzero => hcount (UInt64.toNat_inj.mp hzero)
      obtain ⟨spawn, j, hreach⟩ := parallel_for_wrapped hcount hparallel hroom
      exact wrapped_not_covers hpos (hcovers _ hreach)
  · intro hcounted s hreach
    have hcovering : Covering s :=
      Transition.invariant (Covering.init hcounted) (fun _ _ _ h hok hstep => h.step hok.1 hstep) hreach
    have hstaffed : Staffed num_workers.toNat s :=
      Transition.invariant (Staffed.init count max_workers num_workers) (fun _ _ _ h hok hstep => h.step hok.2 hstep) hreach
    exact hcovering.covers hstaffed

/-- A count of 2³² has no helper: the call returns at once. -/
theorem count_of_two_pow_32_is_skipped :
    ¬ ∀ (count : UInt64) (max_workers num_workers : UInt32) (s : pool_t),
      Relation.ReflTransGen (Transition.Step Uncancelled pool_t.step) (parallel_for count max_workers num_workers) s →
        s.Covers := by
  have hrun : (Transition.run Uncancelled pool_t.step (parallel_for (2 ^ 32) 0 2) [.wait_test]).any
      (fun s => s.caller = .returned && s.calls = [] && 0 < s.count) = true := by
    decide
  obtain ⟨s, hreach, htest⟩ := Transition.run_any hrun
  simp only [Bool.and_eq_true, decide_eq_true_eq] at htest
  obtain ⟨⟨hreturned, hcalls⟩, hcount⟩ := htest
  intro hlaw
  have hcalled := (hlaw (2 ^ 32) 0 2 s hreach).all (Or.inl hreturned) 0 hcount
  rw [hcalls] at hcalled
  cases hcalled

end slop.core.infra.pool
