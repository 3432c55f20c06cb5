import ReverseSlop.Core.Infra.WorkQueue.Staffing

namespace slop.core.infra.pool

/-- Between the caller's test of the predicate and its sleep no helper notifies once all are
counted: the last increment does not fall there together with a notification. And `stop`
keeps the helpers that it has let in. -/
def Awake (s : pool_t) (op : op_t) : Prop :=
  match op with
  | .notify _ => s.caller = .block → s.workers_done < s.spawn
  | op => Drains s op

instance (s : pool_t) : ∀ op, Decidable (Awake s op)
  | .notify _ => inferInstanceAs (Decidable (_ → _))
  | .stop => inferInstanceAs (Decidable (_ = _))
  | .clear => inferInstanceAs (Decidable (_ = _))
  | .serial_call _ | .serial_return _ | .submit_test _ | .submit_push _ | .pop | .claim _ | .body_return _ _ | .done _
  | .wait_test | .block | .wake | .cancel | .worker_exit | .other_push | .other_end => instDecidableTrue

private theorem Awake.drains {s : pool_t} {op : op_t} (h : Awake s op) : Drains s op := by
  cases op with
  | notify l => trivial
  | _ => exact h

/-- The caller sleeps although no helper is left to wake it. -/
def pool_t.LostWakeup (s : pool_t) : Prop := s.caller = .blocked ∧ s.loops = [] ∧ s.helper_queued = false

/-- The caller sleeps although a helper that it waits for was discarded. -/
def pool_t.LostHelper (s : pool_t) : Prop := s.caller = .blocked ∧ s.discarded ≠ []

/-- The caller has seen that not all helpers were counted and is going to sleep, or sleeps. -/
def caller_t.waits : caller_t → Bool
  | .block | .blocked => true
  | _ => false

/-- A caller that waits has a helper that is not counted yet, or one that has yet to notify. -/
def Attended (s : pool_t) : Prop :=
  s.caller.waits = true → s.workers_done < s.spawn ∨ ∃ l ∈ s.loops, l.pc = .notify

private theorem attended_of_not_waits {s : pool_t} (hcaller : s.caller.waits = false) : Attended s :=
  fun hwaits => absurd (hcaller.symm.trans hwaits) Bool.false_ne_true

private theorem next_slot_not_waits (spawn slot : Nat) : (next_slot spawn slot).waits = false := by
  rw [next_slot]
  split <;> rfl

private theorem Attended.init (count : UInt64) (max_workers num_workers : UInt32) :
    Attended (parallel_for count max_workers num_workers) := by
  apply attended_of_not_waits
  rw [parallel_for]
  simp only
  split
  · rfl
  split
  · rfl
  · exact next_slot_not_waits _ _

section

variable {s s' : pool_t} {l : loop_t}

/-- A step that counts no helper and keeps those that have yet to notify. -/
theorem Attended.keep (h : Attended s) (hcaller : s'.caller.waits = true → s.caller.waits = true)
    (hdone : s'.workers_done = s.workers_done) (hspawn : s'.spawn = s.spawn)
    (hloops : ∀ l ∈ s.loops, l.pc = .notify → l ∈ s'.loops) : Attended s' := by
  intro hwaits
  obtain hleft | ⟨l, hl, hpc⟩ := h (hcaller hwaits)
  · exact Or.inl (by rw [hdone, hspawn]; exact hleft)
  · exact Or.inr ⟨l, hloops l hl hpc, hpc⟩

/-- Another loop is not touched by a move. -/
theorem mem_move {pc : loop_pc_t} {l' : loop_t} (hl' : l' ∈ s.loops) (hne : l' ≠ l) : l' ∈ (s.move l pc).loops :=
  List.mem_cons_of_mem _ ((List.mem_erase_of_ne hne).mpr hl')

private theorem Attended.move {pc : loop_pc_t} (h : Attended s) (hpc : l.pc ≠ .notify) : Attended (s.move l pc) := by
  refine h.keep id rfl rfl fun l' hl' hnotify => mem_move hl' ?_
  rintro rfl
  exact hpc hnotify

private theorem Attended.claim (h : Attended s) (hstep : s.step (.claim l) = some s') : Attended s' := by
  obtain ⟨⟨-, hpc⟩, hs'⟩ := Option.ite_none_right_eq_some.mp hstep
  have hnot : l.pc ≠ .notify := by
    rw [hpc]
    nofun
  cases hs'
  split
  · exact h.move hnot
  split <;> exact h.move hnot

/-- A notification wakes the caller if it sleeps, and comes too early only if another follows. -/
theorem attended_notify (hok : s.caller = .block → s.workers_done < s.spawn)
    (hstep : s.step (.notify l) = some s') : Attended s' := by
  obtain ⟨-, hs'⟩ := Option.ite_none_right_eq_some.mp hstep
  cases hs'
  intro hwaits
  simp only at hwaits ⊢
  split at hwaits
  · rw [next_slot_not_waits] at hwaits
    cases hwaits
  split at hwaits
  · cases hwaits
  · rename_i hawake
    cases hcaller : s.caller with
    | block => exact Or.inl (hok hcaller)
    | blocked => exact absurd hcaller hawake
    | _ =>
      rw [hcaller] at hwaits
      cases hwaits

private theorem Attended.step {op : op_t} (h : Attended s) (hok : Awake s op) (hstep : s.step op = some s') : Attended s' := by
  cases op with
  | serial_call i =>
    obtain ⟨-, hs'⟩ := Option.ite_none_right_eq_some.mp hstep
    split at hs' <;> cases hs'
    · exact attended_of_not_waits rfl
    · exact attended_of_not_waits rfl
  | serial_return i =>
    obtain ⟨-, hs'⟩ := Option.ite_none_right_eq_some.mp hstep
    cases hs'
    exact attended_of_not_waits rfl
  | submit_test slot =>
    obtain ⟨-, hs'⟩ := Option.ite_none_right_eq_some.mp hstep
    cases hs'
    split
    · exact attended_of_not_waits rfl
    · exact attended_of_not_waits rfl
  | submit_push slot =>
    obtain ⟨-, hs'⟩ := Option.ite_none_right_eq_some.mp hstep
    cases hs'
    split
    · exact attended_of_not_waits rfl
    · exact attended_of_not_waits (next_slot_not_waits _ _)
  | pop =>
    obtain ⟨-, htake⟩ := Option.ite_none_right_eq_some.mp hstep
    split at htake <;> cases htake
    · exact h.keep id rfl rfl fun _ hl _ => List.mem_cons_of_mem _ hl
    · exact h.keep id rfl rfl fun _ hl _ => hl
  | claim l => exact h.claim hstep
  | body_return l i =>
    obtain ⟨⟨-, hpc⟩, hs'⟩ := Option.ite_none_right_eq_some.mp hstep
    cases hs'
    exact h.move (by rw [hpc]; nofun)
  | done l =>
    obtain ⟨-, hs'⟩ := Option.ite_none_right_eq_some.mp hstep
    cases hs'
    exact fun _ => Or.inr ⟨_, List.mem_cons_self, rfl⟩
  | notify l => exact attended_notify hok hstep
  | wait_test =>
    obtain ⟨-, hs'⟩ := Option.ite_none_right_eq_some.mp hstep
    cases hs'
    split
    · exact attended_of_not_waits rfl
    · rename_i hleft
      exact fun _ => Or.inl (Nat.not_le.mp hleft)
  | block =>
    obtain ⟨hcaller, hs'⟩ := Option.ite_none_right_eq_some.mp hstep
    cases hs'
    exact h.keep (fun _ => by rw [hcaller]; rfl) rfl rfl fun _ hl _ => hl
  | wake =>
    obtain ⟨-, hs'⟩ := Option.ite_none_right_eq_some.mp hstep
    cases hs'
    exact attended_of_not_waits rfl
  | cancel =>
    cases hstep
    exact h
  | stop =>
    cases hstep
    exact h
  | _ =>
    obtain ⟨-, hs'⟩ := Option.ite_none_right_eq_some.mp hstep
    cases hs'
    exact h

/-- As long as the last increment and a notification do not both fall between the caller's test
and its sleep, and `stop` discards no helper, the caller is never stranded. -/
theorem caller_never_stranded {count : UInt64} {max_workers num_workers : UInt32}
    (hreach : Relation.ReflTransGen (Transition.Step Awake pool_t.step) (parallel_for count max_workers num_workers) s) :
    ¬ s.LostWakeup ∧ ¬ s.LostHelper := by
  have hattended : Attended s :=
    Transition.invariant (Attended.init count max_workers num_workers) (fun _ _ _ h hok hstep => h.step hok hstep) hreach
  have hstaffed : Staffed num_workers.toNat s :=
    Transition.invariant (Staffed.init count max_workers num_workers) (fun _ _ _ h hok hstep => h.step hok.drains hstep) hreach
  constructor
  · rintro ⟨hblocked, hloops, hqueued⟩
    -- without loops and queued helpers all helpers are counted
    have htotal := hstaffed.accounts.total
    rw [hloops, countP_queue_eq_zero hqueued, hstaffed.discarded, hblocked] at htotal
    obtain hleft | ⟨l, hl, -⟩ := hattended (by rw [hblocked]; rfl)
    · exact Nat.ne_of_lt hleft htotal
    · rw [hloops] at hl
      cases hl
  · rintro ⟨-, hdiscarded⟩
    exact hdiscarded hstaffed.discarded

/-- One helper runs, one is queued, and the caller sleeps in a pool that has been stopped. -/
theorem sleeping_caller_is_attended :
    ∃ s : pool_t, s.caller = .blocked ∧ ¬ s.LostWakeup ∧ ¬ s.LostHelper := by
  have hrun : (Transition.run Awake pool_t.step (parallel_for 2 0 2)
      [.submit_test 0, .submit_push 0, .submit_test 1, .submit_push 1, .pop, .wait_test, .stop, .block]).any
      (fun s => s.caller = .blocked) = true := by
    decide
  obtain ⟨s, hreach, hblocked⟩ := Transition.run_any hrun
  exact ⟨s, of_decide_eq_true hblocked, caller_never_stranded hreach⟩

/-- The helpers finish between the caller's test and its sleep; or the workers are gone when a
helper is queued that `submit` has already let in. -/
theorem caller_is_stranded :
    (¬ ∀ (count : UInt64) (max_workers num_workers : UInt32) (s : pool_t),
      Relation.ReflTransGen (Transition.Step (fun _ _ => True) pool_t.step) (parallel_for count max_workers num_workers) s →
        ¬ s.LostWakeup) ∧
    ¬ ∀ (count : UInt64) (max_workers num_workers : UInt32) (s : pool_t),
      Relation.ReflTransGen (Transition.Step (fun _ _ => True) pool_t.step) (parallel_for count max_workers num_workers) s →
        ¬ s.LostHelper := by
  constructor
  · have hrun : (Transition.run (fun (_ : pool_t) _ => True) pool_t.step (parallel_for 2 0 2)
        [.submit_test 0, .submit_push 0, .submit_test 1, .submit_push 1, .pop, .pop, .wait_test,
          .claim ⟨0, .claim, false⟩, .body_return ⟨0, .body 0, false⟩ 0, .claim ⟨0, .claim, false⟩,
          .body_return ⟨0, .body 1, false⟩ 1, .claim ⟨0, .claim, false⟩, .done ⟨0, .done, false⟩,
          .notify ⟨0, .notify, false⟩, .claim ⟨1, .claim, false⟩, .done ⟨1, .done, false⟩, .notify ⟨1, .notify, false⟩,
          .block]).any
        (fun s => s.caller = .blocked && s.loops = [] && s.helper_queued = false) = true := by
      decide
    obtain ⟨s, hreach, htest⟩ := Transition.run_any hrun
    simp only [Bool.and_eq_true, decide_eq_true_eq] at htest
    intro hlaw
    exact hlaw 2 0 2 s hreach ⟨htest.1.1, htest.1.2, htest.2⟩
  · have hrun : (Transition.run (fun (_ : pool_t) _ => True) pool_t.step (parallel_for 2 0 2)
        [.submit_test 0, .stop, .worker_exit, .worker_exit, .submit_push 0, .submit_test 1,
          .claim ⟨1, .claim, true⟩, .body_return ⟨1, .body 0, true⟩ 0, .claim ⟨1, .claim, true⟩,
          .body_return ⟨1, .body 1, true⟩ 1, .claim ⟨1, .claim, true⟩, .done ⟨1, .done, true⟩,
          .notify ⟨1, .notify, true⟩, .clear, .wait_test, .block]).any
        (fun s => s.caller = .blocked && !s.discarded.isEmpty) = true := by
      decide
    obtain ⟨s, hreach, htest⟩ := Transition.run_any hrun
    simp only [Bool.and_eq_true, decide_eq_true_eq, Bool.not_eq_true', List.isEmpty_eq_false_iff] at htest
    intro hlaw
    exact hlaw 2 0 2 s hreach htest

end

end slop.core.infra.pool
