import ReverseSlop.Core.Infra.WorkQueue.State

namespace slop.core.infra.pool

/-- A helper of the call is queued. -/
def pool_t.helper_queued (s : pool_t) : Bool := s.queue.any task_t.is_helper

/-- The caller is in `submit`, behind the test of `stopping`. -/
def caller_t.pushing : caller_t → Bool
  | .push _ => true
  | _ => false

/-- The workers that have not left. -/
def pool_t.workers (s : pool_t) : Nat := s.idle + s.others + s.loops.countP fun l => !l.inline

/-- `stop` does not fall between the test of `stopping` in `submit` and the push of the same
helper, and it clears the queue only when all workers have left: each was joined, none was
detached at the deadline. -/
def Drains (s : pool_t) : op_t → Prop
  | .stop => s.caller.pushing = false
  | .clear => s.workers = 0
  | _ => True

instance (s : pool_t) : ∀ op, Decidable (Drains s op)
  | .stop => inferInstanceAs (Decidable (_ = _))
  | .clear => inferInstanceAs (Decidable (_ = _))
  | .serial_call _ | .serial_return _ | .submit_test _ | .submit_push _ | .pop | .claim _ | .body_return _ _ | .done _
  | .notify _ | .wait_test | .block | .wake | .cancel | .worker_exit | .other_push | .other_end => instDecidableTrue

/-- A worker leaves only a stopped pool without helpers in its queue, and none comes in again. -/
structure Staffed (workers : Nat) (s : pool_t) : Prop where
  accounts : Accounts s
  spawn : s.spawn ≤ workers
  stopped : s.stopping = true → s.caller.pushing = false
  staff : s.workers = workers ∨ s.stopping = true ∧ s.helper_queued = false
  discarded : s.discarded = []

theorem next_slot_not_pushing (spawn slot : Nat) : (next_slot spawn slot).pushing = false := by
  rw [next_slot]
  split <;> rfl

private theorem spawn_le (count : UInt64) (max_workers num_workers : UInt32) :
    spawn_of count (max_slots max_workers num_workers) ≤ num_workers.toNat := by
  have hslots : (max_slots max_workers num_workers).toNat ≤ num_workers.toNat := by
    rw [max_slots]
    split
    · exact Nat.le_refl _
    · rw [UInt32.min_def]
      split
      · rename_i hle
        exact UInt32.le_iff_toNat_le.mp hle
      · exact Nat.le_refl _
  exact Nat.le_trans (Nat.min_le_left _ _) hslots

theorem Staffed.init (count : UInt64) (max_workers num_workers : UInt32) :
    Staffed num_workers.toNat (parallel_for count max_workers num_workers) := by
  have haccounts := Accounts.init count max_workers num_workers
  have hspawn := spawn_le count max_workers num_workers
  rw [parallel_for] at haccounts ⊢
  simp only at haccounts ⊢
  split
  · rename_i hzero
    rw [if_pos hzero] at haccounts
    exact ⟨haccounts, Nat.zero_le _, fun h => absurd h Bool.false_ne_true, Or.inl rfl, rfl⟩
  rename_i hnonzero
  rw [if_neg hnonzero] at haccounts
  split
  · rename_i hserial
    rw [if_pos hserial] at haccounts
    exact ⟨haccounts, Nat.zero_le _, fun h => absurd h Bool.false_ne_true, Or.inl rfl, rfl⟩
  · rename_i hparallel
    rw [if_neg hparallel] at haccounts
    exact ⟨haccounts, hspawn, fun _ => next_slot_not_pushing _ _, Or.inl rfl, rfl⟩

section

variable {workers : Nat} {s s' : pool_t} {l : loop_t}

private theorem workers_move (hl : l ∈ s.loops) (pc : loop_pc_t) : (s.move l pc).workers = s.workers := by
  have hswap : (Swap.swap s.loops l { l with pc }).countP (fun l => !l.inline) = s.loops.countP fun l => !l.inline :=
    Nat.add_right_cancel (Swap.countP_swap (fun l => !l.inline) hl)
  rw [pool_t.workers, pool_t.move, hswap]
  rfl

private theorem workers_reject (slot : Nat) : (s.reject slot).workers = s.workers := by
  rw [pool_t.workers, pool_t.reject, List.countP_cons_of_neg (by simp)]
  rfl

theorem countP_queue_eq_zero (hnone : s.helper_queued = false) : s.queue.countP task_t.is_helper = 0 :=
  List.countP_eq_zero.mpr (List.any_eq_false.mp hnone)

/-- A step that no worker comes or leaves with, and that queues no helper. -/
theorem Staffed.keep {op : op_t} (h : Staffed workers s) (hstep : s.step op = some s') (hworkers : s'.workers = s.workers)
    (hqueued : s.helper_queued = false → s'.helper_queued = false) (hstopping : s'.stopping = s.stopping)
    (hpushing : s'.caller.pushing = true → s.caller.pushing = true ∨ s.stopping = false)
    (hdiscarded : s'.discarded = s.discarded) : Staffed workers s' := by
  refine ⟨h.accounts.step hstep, (step_spawn hstep).1 ▸ h.spawn, fun hstop => ?_, ?_, hdiscarded.trans h.discarded⟩
  · have hbefore := h.stopped (hstopping.symm.trans hstop)
    by_contra hnot
    obtain hpush | hrunning := hpushing (Bool.not_eq_false _ ▸ hnot)
    · exact Bool.false_ne_true (hbefore.symm.trans hpush)
    · exact Bool.false_ne_true (hrunning.symm.trans (hstopping.symm.trans hstop))
  · rw [hworkers, hstopping]
    exact h.staff.imp_right fun hstaff => ⟨hstaff.1, hqueued hstaff.2⟩

private theorem Staffed.submit_push {slot : Nat} (h : Staffed workers s) (hstep : s.step (.submit_push slot) = some s') :
    Staffed workers s' := by
  have hkeep := h.keep hstep
  have haccounts := h.accounts.step hstep
  obtain ⟨hcaller, hs'⟩ := Option.ite_none_right_eq_some.mp hstep
  cases hs'
  split
  · rename_i hfull
    rw [if_pos hfull] at hkeep
    exact hkeep (workers_reject slot) id rfl nofun rfl
  · rename_i hroom
    rw [if_neg hroom] at haccounts
    -- a pool that has stopped lets no helper in
    have hrunning : s.stopping = false := by
      by_contra hstopped
      have hpush := h.stopped (Bool.not_eq_false _ ▸ hstopped)
      rw [hcaller] at hpush
      cases hpush
    refine ⟨haccounts, h.spawn, fun hstop => ?_, h.staff.imp_right fun hstaff => ?_, h.discarded⟩
    · exact absurd (hrunning.symm.trans hstop) Bool.false_ne_true
    · exact absurd (hrunning.symm.trans hstaff.1) Bool.false_ne_true

private theorem Staffed.pop (h : Staffed workers s) (hstep : s.step .pop = some s') : Staffed workers s' := by
  have hkeep := h.keep hstep
  obtain ⟨hidle, htake⟩ := Option.ite_none_right_eq_some.mp hstep
  split at htake
  · rename_i slot queue hqueue
    cases htake
    refine hkeep ?_ (fun hnone => ?_) rfl Or.inl rfl
    · simp only [pool_t.workers]
      rw [List.countP_cons_of_pos rfl]
      omega
    · rw [pool_t.helper_queued, hqueue] at hnone
      cases hnone
  · rename_i queue hqueue
    cases htake
    refine hkeep ?_ (fun hnone => ?_) rfl Or.inl rfl
    · simp only [pool_t.workers]
      omega
    · rw [pool_t.helper_queued, hqueue] at hnone
      exact hnone
  · cases htake

private theorem Staffed.notify (h : Staffed workers s) (hstep : s.step (.notify l) = some s') : Staffed workers s' := by
  have hkeep := h.keep hstep
  obtain ⟨⟨hl, -⟩, hs'⟩ := Option.ite_none_right_eq_some.mp hstep
  cases hs'
  have herase := Swap.countP_erase (fun l => !l.inline) hl
  refine hkeep ?_ id rfl (fun hpush => ?_) rfl
  · simp only [pool_t.workers]
    cases hinline : l.inline with
    | true =>
      rw [hinline] at herase
      simp only [Bool.not_true, Bool.toNat_false, Nat.add_zero, if_true] at herase ⊢
      omega
    | false =>
      rw [hinline] at herase
      simp only [Bool.not_false, Bool.toNat_true, Bool.false_eq_true, if_false] at herase ⊢
      omega
  · simp only at hpush
    split at hpush
    · rw [next_slot_not_pushing] at hpush
      cases hpush
    split at hpush
    · cases hpush
    · exact Or.inl hpush

/-- The workers that a pool has left are not there to be joined only if none was there at all. -/
theorem Staffed.clear (h : Staffed workers s) (hnone : s.workers = 0) (hstep : s.step .clear = some s') :
    Staffed workers s' := by
  have haccounts := h.accounts.step hstep
  obtain ⟨hstop, hs'⟩ := Option.ite_none_right_eq_some.mp hstep
  cases hs'
  have hqueued : s.helper_queued = false := by
    obtain hall | ⟨-, hqueued⟩ := h.staff
    · rw [pool_t.helper_queued, List.any_eq_false]
      intro t ht
      cases t with
      | helper slot =>
        have hlt := h.accounts.queued slot ht
        have hspawn := h.spawn
        omega
      | other => exact Bool.false_ne_true
    · exact hqueued
  have hfilter : s.queue.filter task_t.is_helper = [] := List.filter_eq_nil_iff.mpr (List.any_eq_false.mp hqueued)
  refine ⟨haccounts, h.spawn, h.stopped, Or.inr ⟨hstop, rfl⟩, ?_⟩
  rw [hfilter, List.append_nil]
  exact h.discarded

theorem Staffed.step {op : op_t} (h : Staffed workers s) (hok : Drains s op) (hstep : s.step op = some s') :
    Staffed workers s' := by
  have hkeep := h.keep hstep
  have haccounts := h.accounts.step hstep
  cases op with
  | serial_call i =>
    obtain ⟨-, hs'⟩ := Option.ite_none_right_eq_some.mp hstep
    split at hs' <;> cases hs'
    · exact hkeep rfl id rfl nofun rfl
    · exact hkeep rfl id rfl nofun rfl
  | submit_test slot =>
    obtain ⟨-, hs'⟩ := Option.ite_none_right_eq_some.mp hstep
    cases hs'
    split
    · rename_i hstop
      rw [if_pos hstop] at hkeep
      exact hkeep (workers_reject slot) id rfl nofun rfl
    · rename_i hrunning
      rw [if_neg hrunning] at hkeep
      exact hkeep rfl id rfl (fun _ => Or.inr (Bool.not_eq_true _ ▸ hrunning)) rfl
  | submit_push slot => exact h.submit_push hstep
  | pop => exact h.pop hstep
  | claim l =>
    obtain ⟨⟨hl, -⟩, hs'⟩ := Option.ite_none_right_eq_some.mp hstep
    by_cases hcancelled : s.cancelled = true
    · rw [if_pos hcancelled] at hs'
      cases hs'
      exact hkeep (workers_move hl _) id rfl Or.inl rfl
    rw [if_neg hcancelled] at hs'
    by_cases hend : s.count ≤ s.next_index
    · rw [if_pos hend] at hs'
      cases hs'
      exact hkeep (workers_move hl _) id rfl Or.inl rfl
    · rw [if_neg hend] at hs'
      cases hs'
      exact hkeep (workers_move hl _) id rfl Or.inl rfl
  | body_return l i =>
    obtain ⟨⟨hl, -⟩, hs'⟩ := Option.ite_none_right_eq_some.mp hstep
    cases hs'
    exact hkeep (workers_move hl _) id rfl Or.inl rfl
  | done l =>
    obtain ⟨⟨hl, -⟩, hs'⟩ := Option.ite_none_right_eq_some.mp hstep
    cases hs'
    exact hkeep (workers_move hl _) id rfl Or.inl rfl
  | notify l => exact h.notify hstep
  | wait_test =>
    obtain ⟨-, hs'⟩ := Option.ite_none_right_eq_some.mp hstep
    cases hs'
    refine hkeep rfl id rfl (fun hpush => ?_) rfl
    simp only at hpush
    split at hpush <;> cases hpush
  | cancel =>
    cases hstep
    exact hkeep rfl id rfl Or.inl rfl
  | stop =>
    cases hstep
    exact ⟨haccounts, h.spawn, fun _ => hok, h.staff.imp_right fun hstaff => ⟨rfl, hstaff.2⟩, h.discarded⟩
  | clear => exact h.clear hok hstep
  | worker_exit =>
    obtain ⟨⟨hstop, hqueue, -⟩, hs'⟩ := Option.ite_none_right_eq_some.mp hstep
    cases hs'
    refine ⟨haccounts, h.spawn, h.stopped, Or.inr ⟨hstop, ?_⟩, h.discarded⟩
    rw [pool_t.helper_queued, hqueue]
    rfl
  | other_push =>
    obtain ⟨-, hs'⟩ := Option.ite_none_right_eq_some.mp hstep
    cases hs'
    refine hkeep rfl (fun hnone => ?_) rfl Or.inl rfl
    rw [pool_t.helper_queued, List.any_append, ← pool_t.helper_queued, hnone]
    rfl
  | other_end =>
    obtain ⟨hothers, hs'⟩ := Option.ite_none_right_eq_some.mp hstep
    cases hs'
    refine hkeep ?_ id rfl Or.inl rfl
    simp only [pool_t.workers]
    omega
  | _ =>
    obtain ⟨-, hs'⟩ := Option.ite_none_right_eq_some.mp hstep
    cases hs'
    exact hkeep rfl id rfl nofun rfl

/-- While a helper is queued, all workers are there. -/
theorem Staffed.served (h : Staffed workers s) (hqueued : s.helper_queued = true) : 0 < s.workers := by
  have hspawn := h.spawn
  obtain hall | ⟨-, hnone⟩ := h.staff
  · obtain ⟨t, ht, hhelper⟩ := List.any_eq_true.mp hqueued
    cases t with
    | helper slot =>
      have hlt := h.accounts.queued slot ht
      omega
    | other => cases hhelper
  · cases hnone.symm.trans hqueued

end

end slop.core.infra.pool
