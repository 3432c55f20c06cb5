import ReverseSlop.Core.Infra.WorkQueue.State

namespace slop.core.infra.pool

/-- The test of the predicate that lets the caller return finds no loop between its increment
of `workers_done` and its notification. -/
def Notified (s : pool_t) : op_t → Prop
  | .wait_test => s.spawn ≤ s.workers_done → ∀ l ∈ s.loops, l.pc ≠ .notify
  | _ => True

instance (s : pool_t) : ∀ op, Decidable (Notified s op)
  | .wait_test => inferInstanceAs (Decidable (_ → _))
  | .serial_call _ | .serial_return _ | .submit_test _ | .submit_push _ | .pop | .claim _ | .body_return _ _ | .done _
  | .notify _ | .block | .wake | .cancel | .stop | .clear | .worker_exit | .other_push | .other_end => instDecidableTrue

/-- No loop runs and no helper is queued: nothing will touch the locals of the call. -/
def pool_t.Quiet (s : pool_t) : Prop := s.loops = [] ∧ ∀ slot, .helper slot ∉ s.queue

/-- No loop of a call that has returned is left. -/
structure Ended (s : pool_t) : Prop where
  accounts : Accounts s
  returned : s.caller = .returned → s.loops = []

private theorem Ended.init (count : UInt64) (max_workers num_workers : UInt32) :
    Ended (parallel_for count max_workers num_workers) := by
  refine ⟨Accounts.init count max_workers num_workers, fun _ => ?_⟩
  rw [parallel_for]
  simp only
  split
  · rfl
  split
  · rfl
  · rfl

section

variable {s s' : pool_t} {l : loop_t}

/-- A call that has returned has no queued helper. -/
theorem Accounts.not_queued (h : Accounts s) (hreturned : s.caller = .returned) (slot : Nat) :
    .helper slot ∉ s.queue := by
  obtain ⟨-, hqueue, -⟩ := h.all_done (h.returned hreturned)
  exact hqueue slot

private theorem Ended.pop (h : Ended s) (hstep : s.step .pop = some s') (hreturned : s'.caller = .returned) : s'.loops = [] := by
  obtain ⟨-, htake⟩ := Option.ite_none_right_eq_some.mp hstep
  split at htake
  · rename_i slot queue hqueue
    cases htake
    exact absurd (hqueue ▸ List.mem_cons_self) (h.accounts.not_queued hreturned slot)
  · cases htake
    exact h.returned hreturned
  · cases htake

/-- A step of a loop does not let the caller return. -/
theorem Ended.loop (h : Ended s) (hl : l ∈ s.loops) (hreturned : s.caller = .returned) : False := by
  rw [h.returned hreturned] at hl
  exact List.not_mem_nil hl

/-- Only the end of the serial fallback and a test of the predicate let the caller return. -/
theorem Ended.step {op : op_t} (h : Ended s) (hok : Notified s op) (hstep : s.step op = some s') : Ended s' := by
  refine ⟨h.accounts.step hstep, fun hreturned => ?_⟩
  cases op with
  | serial_call i =>
    obtain ⟨hcaller, hs'⟩ := Option.ite_none_right_eq_some.mp hstep
    have hnone : s.loops = [] := h.accounts.no_loops (h.accounts.serial (by rw [hcaller]; trivial))
    split at hs' <;> cases hs'
    · exact hnone
    · exact hnone
  | serial_return i =>
    obtain ⟨-, hs'⟩ := Option.ite_none_right_eq_some.mp hstep
    cases hs'
    cases hreturned
  | submit_test slot =>
    obtain ⟨-, hs'⟩ := Option.ite_none_right_eq_some.mp hstep
    cases hs'
    split at hreturned <;> cases hreturned
  | submit_push slot =>
    obtain ⟨-, hs'⟩ := Option.ite_none_right_eq_some.mp hstep
    cases hs'
    split at hreturned
    · cases hreturned
    · exact absurd hreturned (next_slot_ne_returned _ _)
  | pop => exact h.pop hstep hreturned
  | claim l =>
    obtain ⟨⟨hl, -⟩, hs'⟩ := Option.ite_none_right_eq_some.mp hstep
    cases hs'
    split at hreturned
    · exact (h.loop hl hreturned).elim
    split at hreturned
    · exact (h.loop hl hreturned).elim
    · exact (h.loop hl hreturned).elim
  | body_return l i =>
    obtain ⟨⟨hl, -⟩, hs'⟩ := Option.ite_none_right_eq_some.mp hstep
    cases hs'
    exact (h.loop hl hreturned).elim
  | done l =>
    obtain ⟨⟨hl, -⟩, hs'⟩ := Option.ite_none_right_eq_some.mp hstep
    cases hs'
    exact (h.loop hl hreturned).elim
  | notify l =>
    obtain ⟨⟨hl, -⟩, hs'⟩ := Option.ite_none_right_eq_some.mp hstep
    cases hs'
    simp only at hreturned
    split at hreturned
    · exact absurd hreturned (next_slot_ne_returned _ _)
    split at hreturned
    · cases hreturned
    · exact (h.loop hl hreturned).elim
  | wait_test =>
    obtain ⟨-, hs'⟩ := Option.ite_none_right_eq_some.mp hstep
    cases hs'
    by_cases hdone : s.workers_done ≥ s.spawn
    · obtain ⟨hloops, -⟩ := h.accounts.all_done hdone
      apply List.eq_nil_iff_forall_not_mem.mpr
      intro l hl
      exact hok hdone l hl (hloops l hl)
    · simp only [if_neg hdone] at hreturned
      cases hreturned
  | block =>
    obtain ⟨-, hs'⟩ := Option.ite_none_right_eq_some.mp hstep
    cases hs'
    cases hreturned
  | wake =>
    obtain ⟨-, hs'⟩ := Option.ite_none_right_eq_some.mp hstep
    cases hs'
    cases hreturned
  | cancel =>
    cases hstep
    exact h.returned hreturned
  | stop =>
    cases hstep
    exact h.returned hreturned
  | _ =>
    obtain ⟨-, hs'⟩ := Option.ite_none_right_eq_some.mp hstep
    cases hs'
    exact h.returned hreturned

/-- As long as the caller returns only behind the last notification, no helper has a step left
that touches the locals of a call that has returned. -/
theorem no_helper_outlives_call {count : UInt64} {max_workers num_workers : UInt32}
    (hreach : Relation.ReflTransGen (Transition.Step Notified pool_t.step) (parallel_for count max_workers num_workers) s)
    (hreturned : s.caller = .returned) : s.Quiet := by
  have hended : Ended s :=
    Transition.invariant (Ended.init count max_workers num_workers) (fun _ _ _ h hok hstep => h.step hok hstep) hreach
  exact ⟨hended.returned hreturned, hended.accounts.not_queued hreturned⟩

/-- Two helpers finish, and then the caller returns. -/
theorem call_returns_last :
    ∃ s : pool_t, s.caller = .returned ∧ s.Quiet := by
  have hrun : (Transition.run Notified pool_t.step (parallel_for 2 0 2)
      [.submit_test 0, .submit_push 0, .submit_test 1, .submit_push 1, .pop, .pop, .claim ⟨0, .claim, false⟩,
        .claim ⟨1, .claim, false⟩, .body_return ⟨0, .body 0, false⟩ 0, .claim ⟨0, .claim, false⟩,
        .done ⟨0, .done, false⟩, .notify ⟨0, .notify, false⟩, .body_return ⟨1, .body 1, false⟩ 1,
        .claim ⟨1, .claim, false⟩, .done ⟨1, .done, false⟩, .notify ⟨1, .notify, false⟩, .wait_test]).any
      (fun s => s.caller = .returned) = true := by
    decide
  obtain ⟨s, hreach, hreturned⟩ := Transition.run_any hrun
  exact ⟨s, of_decide_eq_true hreturned, no_helper_outlives_call hreach (of_decide_eq_true hreturned)⟩

/-- The caller tests the predicate between the last increment and its notification. -/
theorem call_returns_early :
    ¬ ∀ (count : UInt64) (max_workers num_workers : UInt32) (s : pool_t),
      Relation.ReflTransGen (Transition.Step (fun _ _ => True) pool_t.step) (parallel_for count max_workers num_workers) s →
        s.caller = .returned → s.Quiet := by
  have hrun : (Transition.run (fun (_ : pool_t) _ => True) pool_t.step (parallel_for 2 0 2)
      [.submit_test 0, .submit_push 0, .submit_test 1, .submit_push 1, .pop, .pop, .claim ⟨0, .claim, false⟩,
        .claim ⟨1, .claim, false⟩, .body_return ⟨0, .body 0, false⟩ 0, .claim ⟨0, .claim, false⟩,
        .done ⟨0, .done, false⟩, .notify ⟨0, .notify, false⟩, .body_return ⟨1, .body 1, false⟩ 1,
        .claim ⟨1, .claim, false⟩, .done ⟨1, .done, false⟩, .wait_test]).any
      (fun s => s.caller = .returned && s.loops = [⟨1, .notify, false⟩]) = true := by
    decide
  obtain ⟨s, hreach, htest⟩ := Transition.run_any hrun
  simp only [Bool.and_eq_true, decide_eq_true_eq] at htest
  intro hlaw
  have hquiet := hlaw 2 0 2 s hreach htest.1
  exact absurd (htest.2.symm.trans hquiet.1) (List.cons_ne_nil _ _)

end

end slop.core.infra.pool
