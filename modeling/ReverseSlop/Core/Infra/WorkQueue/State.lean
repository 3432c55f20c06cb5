import Mathlib.Algebra.Group.Nat.Defs
import ReverseSlop.Core.Infra.Limits
import ReverseSlop.Library.Lists
import ReverseSlop.Library.Transition

namespace slop.core.infra.pool

/-- A task in the queue: a helper of the call of `parallel_for` that the model follows, or
anything else. -/
inductive task_t where
  | helper (slot : Nat)
  | other
  deriving DecidableEq

def task_t.is_helper : task_t → Bool
  | .helper _ => true
  | .other => false

/-- What the loop of a helper does next: claim an index, return from the body, count itself as
done, notify. -/
inductive loop_pc_t where
  | claim
  | body (index : Nat)
  | done
  | notify
  deriving DecidableEq

/-- A loop that runs, on a worker or, for a rejected helper, on the caller. -/
structure loop_t where
  slot : Nat
  pc : loop_pc_t := .claim
  inline : Bool := false
  deriving DecidableEq

/-- Where the caller stands: in the serial fallback, at `submit` before the test of `stopping`
or behind it, in the loop of a rejected helper, before the test of the predicate of `done_cv`,
before going to sleep, asleep, or gone. -/
inductive caller_t where
  | serial (index : Nat)
  | serial_body (index : Nat)
  | submit (slot : Nat)
  | push (slot : Nat)
  | inline (slot : Nat)
  | test
  | block
  | blocked
  | returned
  deriving DecidableEq

/-- The pool and one call of `parallel_for`. Not in the program: the indices with which the body
was called, and the helpers that were discarded. -/
structure pool_t where
  queue : List task_t := []
  stopping : Bool := false
  /-- Workers in `worker_loop` without a task, and those that run a task of others. -/
  idle : Nat
  others : Nat := 0
  count : Nat
  cancelled : Bool := false
  spawn : Nat := 0
  next_index : Nat := 0
  workers_done : Nat := 0
  caller : caller_t
  loops : List loop_t := []
  calls : List Nat := []
  discarded : List task_t := []

/-- The caller goes on with a slot, or waits for the helpers. -/
def next_slot (spawn slot : Nat) : caller_t := if slot < spawn then .submit slot else .test

/-- The number of workers that a call may use. -/
def max_slots (max_workers num_workers : UInt32) : UInt32 :=
  if max_workers = 0 then num_workers else min max_workers num_workers

/-- The number of helpers: the count is cast to 32 bits. -/
def spawn_of (count : UInt64) (n : UInt32) : Nat := min n.toNat count.toUInt32.toNat

/-- The call has begun: it is empty, runs in the serial fallback, or submits helpers. -/
def parallel_for (count : UInt64) (max_workers num_workers : UInt32) : pool_t :=
  let n := max_slots max_workers num_workers
  let pool : pool_t := { idle := num_workers.toNat, count := count.toNat, caller := .returned }
  if count = 0 then pool
  else if n ≤ 1 ∨ count = 1 then { pool with caller := .serial 0 }
  else { pool with spawn := spawn_of count n, caller := next_slot (spawn_of count n) 0 }

/-- A loop has gone a step further. -/
def pool_t.move (s : pool_t) (l : loop_t) (pc : loop_pc_t) : pool_t :=
  { s with loops := Swap.swap s.loops l { l with pc } }

/-- The caller takes over the loop of a rejected helper. -/
def pool_t.reject (s : pool_t) (slot : Nat) : pool_t :=
  { s with caller := .inline slot, loops := { slot, inline := true } :: s.loops }

inductive op_t where
  | serial_call (index : Nat)
  | serial_return (index : Nat)
  | submit_test (slot : Nat)
  | submit_push (slot : Nat)
  /-- A worker takes the task at the front. -/
  | pop
  | claim (l : loop_t)
  | body_return (l : loop_t) (index : Nat)
  | done (l : loop_t)
  | notify (l : loop_t)
  | wait_test
  | block
  /-- A spurious wake-up. -/
  | wake
  | cancel
  /-- `stop` up to its joins, and, the workers joined or detached, the clearing of the queue. -/
  | stop
  | clear
  | worker_exit
  | other_push
  | other_end

/-- One atomic step of a thread. -/
def pool_t.step (s : pool_t) : op_t → Option pool_t
  | .serial_call i =>
    if s.caller = .serial i then
      if i < s.count ∧ s.cancelled = false then some { s with caller := .serial_body i, calls := s.calls ++ [i] }
      else some { s with caller := .returned }
    else none
  | .serial_return i => if s.caller = .serial_body i then some { s with caller := .serial (i + 1) } else none
  | .submit_test slot =>
    if s.caller = .submit slot then some (if s.stopping then s.reject slot else { s with caller := .push slot })
    else none
  | .submit_push slot =>
    if s.caller = .push slot then
      some
        (if s.queue.length ≥ limits.pool_queue_cap then s.reject slot
        else { s with queue := s.queue ++ [.helper slot], caller := next_slot s.spawn (slot + 1) })
    else none
  | .pop =>
    if 0 < s.idle then
      match s.queue with
      | .helper slot :: queue => some { s with queue, idle := s.idle - 1, loops := { slot } :: s.loops }
      | .other :: queue => some { s with queue, idle := s.idle - 1, others := s.others + 1 }
      | [] => none
    else none
  | .claim l =>
    if l ∈ s.loops ∧ l.pc = .claim then
      some
        (if s.cancelled then s.move l .done
        else if s.count ≤ s.next_index then { s.move l .done with next_index := (s.next_index + 1) % 2 ^ 64 }
        else
          { s.move l (.body s.next_index) with
            next_index := (s.next_index + 1) % 2 ^ 64
            calls := s.calls ++ [s.next_index] })
    else none
  | .body_return l i => if l ∈ s.loops ∧ l.pc = .body i then some (s.move l .claim) else none
  | .done l =>
    if l ∈ s.loops ∧ l.pc = .done then some { s.move l .notify with workers_done := s.workers_done + 1 } else none
  | .notify l =>
    if l ∈ s.loops ∧ l.pc = .notify then
      some
        { s with
          loops := s.loops.erase l
          idle := if l.inline then s.idle else s.idle + 1
          caller :=
            if l.inline then next_slot s.spawn (l.slot + 1)
            else if s.caller = .blocked then .test
            else s.caller }
    else none
  | .wait_test =>
    if s.caller = .test then some { s with caller := if s.workers_done ≥ s.spawn then .returned else .block }
    else none
  | .block => if s.caller = .block then some { s with caller := .blocked } else none
  | .wake => if s.caller = .blocked then some { s with caller := .test } else none
  | .cancel => some { s with cancelled := true }
  | .stop => some { s with stopping := true }
  | .clear =>
    if s.stopping then some { s with queue := [], discarded := s.discarded ++ s.queue.filter task_t.is_helper }
    else none
  | .worker_exit =>
    if s.stopping = true ∧ s.queue = [] ∧ 0 < s.idle then some { s with idle := s.idle - 1 } else none
  | .other_push =>
    if s.queue.length < limits.pool_queue_cap then some { s with queue := s.queue ++ [.other] } else none
  | .other_end => if 0 < s.others then some { s with others := s.others - 1, idle := s.idle + 1 } else none

/-- The loop is still to be counted in `workers_done`. -/
def loop_t.uncounted (l : loop_t) : Bool := l.pc ≠ .notify

/-- The slots that the caller has not given to a helper or a loop of its own. -/
def caller_t.remaining (spawn : Nat) : caller_t → Nat
  | .submit slot | .push slot => spawn - slot
  | .inline slot => spawn - (slot + 1)
  | .serial _ | .serial_body _ | .test | .block | .blocked | .returned => 0

/-- The slot that the caller is at. -/
def caller_t.slot : caller_t → Option Nat
  | .submit slot | .push slot | .inline slot => some slot
  | .serial _ | .serial_body _ | .test | .block | .blocked | .returned => none

/-- The caller is in the serial fallback. -/
def caller_t.in_serial : caller_t → Prop
  | .serial _ | .serial_body _ => True
  | _ => False

theorem next_slot_not_serial (spawn slot : Nat) : ¬ (next_slot spawn slot).in_serial := by
  rw [next_slot]
  split <;> exact id

/-- Every slot is counted as done, run by a loop, queued, discarded, or still with the caller,
who returns when all are counted. -/
structure Accounts (s : pool_t) : Prop where
  total : s.workers_done + s.loops.countP loop_t.uncounted + s.queue.countP task_t.is_helper + s.discarded.length +
    s.caller.remaining s.spawn = s.spawn
  caller : ∀ slot ∈ s.caller.slot, slot < s.spawn
  queued : ∀ slot, .helper slot ∈ s.queue → slot < s.spawn
  loops : ∀ l ∈ s.loops, l.slot < s.spawn
  inline : ∀ l ∈ s.loops, l.inline = true → s.caller = .inline l.slot
  single : s.loops.countP loop_t.inline ≤ 1
  serial : s.caller.in_serial → s.spawn = 0
  returned : s.caller = .returned → s.spawn ≤ s.workers_done

private theorem next_slot_remaining (spawn slot : Nat) : (next_slot spawn slot).remaining spawn = spawn - slot := by
  rw [next_slot]
  split
  · rfl
  · rw [caller_t.remaining]
    omega

private theorem next_slot_slot {spawn slot slot' : Nat} (h : slot' ∈ (next_slot spawn slot).slot) : slot' < spawn := by
  rw [next_slot] at h
  split at h
  · cases h
    assumption
  · cases h

theorem next_slot_ne_returned (spawn slot : Nat) : next_slot spawn slot ≠ .returned := by
  rw [next_slot]
  split <;> nofun

theorem Accounts.init (count : UInt64) (max_workers num_workers : UInt32) :
    Accounts (parallel_for count max_workers num_workers) := by
  rw [parallel_for]
  simp only
  split
  · exact ⟨rfl, nofun, nofun, nofun, nofun, Nat.zero_le 1, nofun, fun _ => Nat.le_refl 0⟩
  split
  · exact ⟨rfl, nofun, nofun, nofun, nofun, Nat.zero_le 1, fun _ => rfl, nofun⟩
  · refine ⟨?_, fun slot hslot => next_slot_slot hslot, nofun, nofun, nofun, Nat.zero_le 1, ?_, ?_⟩
    · simp [next_slot_remaining]
    · exact fun hserial => absurd hserial (next_slot_not_serial _ _)
    · exact fun hreturned => absurd hreturned (next_slot_ne_returned _ _)

section

variable {s : pool_t} {l : loop_t}

/-- No loop runs on the caller unless it stands in one. -/
theorem Accounts.not_inline (h : Accounts s) (hl : l ∈ s.loops) (hcaller : ∀ slot, s.caller ≠ .inline slot) :
    l.inline = false := by
  cases hinline : l.inline with
  | false => rfl
  | true => exact absurd (h.inline l hl hinline) (hcaller l.slot)

private theorem countP_inline_eq_zero {loops : List loop_t} (hnone : ∀ l ∈ loops, l.inline = false) :
    loops.countP loop_t.inline = 0 := by
  rw [List.countP_eq_zero]
  intro l hl
  rw [hnone l hl]
  exact Bool.false_ne_true

/-- The caller takes a step on its own. -/
theorem Accounts.set_caller {caller : caller_t} (h : Accounts s)
    (hremaining : caller.remaining s.spawn = s.caller.remaining s.spawn) (hslot : ∀ slot ∈ caller.slot, slot < s.spawn)
    (hinline : ∀ slot, s.caller ≠ .inline slot) (hserial : caller.in_serial → s.spawn = 0)
    (hreturned : caller = .returned → s.spawn ≤ s.workers_done) : Accounts { s with caller } := by
  refine ⟨?_, hslot, h.queued, h.loops, fun l hl hl' => ?_, h.single, hserial, hreturned⟩
  · rw [hremaining]
    exact h.total
  · exact absurd (h.inline l hl hl') (hinline l.slot)

private theorem Accounts.reject {slot : Nat} (h : Accounts s) (hslot : s.caller.slot = some slot)
    (hremaining : s.caller.remaining s.spawn = s.spawn - slot) (hinline : ∀ slot, s.caller ≠ .inline slot) :
    Accounts (s.reject slot) := by
  have hlt := h.caller slot hslot
  have htotal := h.total
  have hcount : ({ slot, inline := true } :: s.loops).countP loop_t.uncounted = s.loops.countP loop_t.uncounted + 1 :=
    List.countP_cons_of_pos rfl
  refine ⟨?_, ?_, h.queued, ?_, ?_, ?_, nofun, nofun⟩
  · simp only [pool_t.reject, hcount, caller_t.remaining]
    omega
  · intro slot' hslot'
    cases hslot'
    exact hlt
  · exact List.forall_mem_cons.mpr ⟨hlt, h.loops⟩
  · intro l hl hl'
    obtain rfl | hold := List.mem_cons.mp hl
    · rfl
    · exact absurd (h.inline l hold hl') (hinline l.slot)
  · have hnone := countP_inline_eq_zero fun l hl => h.not_inline hl hinline
    rw [pool_t.reject, List.countP_cons_of_pos rfl]
    omega

private theorem Accounts.push {slot : Nat} (h : Accounts s) (hcaller : s.caller = .push slot) :
    Accounts { s with queue := s.queue ++ [.helper slot], caller := next_slot s.spawn (slot + 1) } := by
  have hlt : slot < s.spawn := h.caller slot (by rw [hcaller]; rfl)
  have htotal := h.total
  have hcount : [task_t.helper slot].countP task_t.is_helper = 1 := rfl
  rw [hcaller, caller_t.remaining] at htotal
  refine ⟨?_, fun slot' hslot' => next_slot_slot hslot', ?_, h.loops, ?_, h.single, ?_, ?_⟩
  · simp only [List.countP_append, next_slot_remaining, hcount]
    omega
  · intro slot' hslot'
    obtain hold | hnew := List.mem_append.mp hslot'
    · exact h.queued slot' hold
    · cases List.mem_singleton.mp hnew
      exact hlt
  · intro l hl hl'
    exact absurd (hcaller.symm.trans (h.inline l hl hl')) nofun
  · exact fun hserial => absurd hserial (next_slot_not_serial _ _)
  · exact fun hreturned => absurd hreturned (next_slot_ne_returned _ _)

private theorem countP_inline_move {loops : List loop_t} (hl : l ∈ loops) (pc : loop_pc_t) :
    (Swap.swap loops l { l with pc }).countP loop_t.inline = loops.countP loop_t.inline :=
  Nat.add_right_cancel (Swap.countP_swap loop_t.inline hl)

/-- A loop goes on within its life. -/
theorem Accounts.move {pc : loop_pc_t} (h : Accounts s) (hl : l ∈ s.loops)
    (hcounted : l.uncounted = loop_t.uncounted { l with pc }) : Accounts (s.move l pc) := by
  have hswap := Swap.countP_swap (b := { l with pc }) loop_t.uncounted hl
  have htotal := h.total
  refine ⟨?_, h.caller, h.queued, ?_, ?_, ?_, h.serial, h.returned⟩
  · rw [hcounted] at hswap
    simp only [pool_t.move]
    omega
  · exact Swap.forall_mem_swap h.loops (h.loops l hl)
  · exact Swap.forall_mem_swap h.inline (h.inline l hl)
  · rw [pool_t.move, countP_inline_move hl]
    exact h.single

private theorem Accounts.done (h : Accounts s) (hl : l ∈ s.loops) (hpc : l.pc = .done) :
    Accounts { s.move l .notify with workers_done := s.workers_done + 1 } := by
  have hswap := Swap.countP_swap (b := { l with pc := .notify }) loop_t.uncounted hl
  have hbefore : l.uncounted = true := by rw [loop_t.uncounted, hpc]; rfl
  have hafter : loop_t.uncounted { l with pc := .notify } = false := rfl
  have htotal := h.total
  rw [hbefore, hafter, Bool.toNat_true, Bool.toNat_false] at hswap
  refine ⟨?_, h.caller, h.queued, ?_, ?_, ?_, h.serial, fun hreturned => Nat.le_succ_of_le (h.returned hreturned)⟩
  · simp only [pool_t.move]
    omega
  · exact Swap.forall_mem_swap h.loops (h.loops l hl)
  · exact Swap.forall_mem_swap h.inline (h.inline l hl)
  · rw [pool_t.move, countP_inline_move hl]
    exact h.single

/-- A loop is over; the caller goes on if the loop was its own, and wakes up if it slept. -/
theorem Accounts.notify {idle : Nat} (h : Accounts s) (hl : l ∈ s.loops) (hpc : l.pc = .notify) :
    Accounts
      { s with
        loops := s.loops.erase l
        idle
        caller :=
          if l.inline then next_slot s.spawn (l.slot + 1)
          else if s.caller = .blocked then .test
          else s.caller } := by
  have herase := Swap.countP_erase loop_t.uncounted hl
  have hcounted : l.uncounted = false := by rw [loop_t.uncounted, hpc]; rfl
  have htotal := h.total
  rw [hcounted, Bool.toNat_false, Nat.add_zero] at herase
  rw [← herase] at htotal
  have hinlines := Swap.countP_erase loop_t.inline hl
  have hsingle := h.single
  have hloops : ∀ l' ∈ s.loops.erase l, l'.slot < s.spawn := fun l' hl' => h.loops l' (List.mem_of_mem_erase hl')
  cases hinline : l.inline with
  | true =>
    have hcaller := h.inline l hl hinline
    rw [hcaller, caller_t.remaining] at htotal
    rw [hinline, Bool.toNat_true] at hinlines
    have hnone : (s.loops.erase l).countP loop_t.inline = 0 := by omega
    have hfewer : (s.loops.erase l).countP loop_t.inline ≤ 1 := by omega
    refine ⟨?_, fun slot hslot => next_slot_slot hslot, h.queued, hloops, ?_, hfewer, ?_, ?_⟩
    · rw [if_pos rfl, next_slot_remaining]
      exact htotal
    · intro l' hl' hinline'
      exact absurd hinline' (List.countP_eq_zero.mp hnone l' hl')
    · exact fun hserial => absurd hserial (next_slot_not_serial _ _)
    · exact fun hreturned => absurd hreturned (next_slot_ne_returned _ _)
  | false =>
    have hfewer : (s.loops.erase l).countP loop_t.inline ≤ 1 := by omega
    rw [if_neg Bool.false_ne_true]
    split
    · rename_i hblocked
      rw [hblocked] at htotal
      refine ⟨htotal, nofun, h.queued, hloops, fun l' hl' hinline' => ?_, hfewer, nofun, nofun⟩
      exact absurd (hblocked.symm.trans (h.inline l' (List.mem_of_mem_erase hl') hinline')) nofun
    · refine ⟨htotal, h.caller, h.queued, hloops, fun l' hl' => ?_, hfewer, h.serial, h.returned⟩
      exact h.inline l' (List.mem_of_mem_erase hl')

variable {s' : pool_t}

theorem step_spawn {op : op_t} (hstep : s.step op = some s') : s'.spawn = s.spawn ∧ s'.count = s.count := by
  cases op with
  | serial_call i =>
    obtain ⟨-, hs'⟩ := Option.ite_none_right_eq_some.mp hstep
    split at hs' <;> cases hs'
    · exact ⟨rfl, rfl⟩
    · exact ⟨rfl, rfl⟩
  | submit_test slot =>
    obtain ⟨-, hs'⟩ := Option.ite_none_right_eq_some.mp hstep
    cases hs'
    split
    · exact ⟨rfl, rfl⟩
    · exact ⟨rfl, rfl⟩
  | submit_push slot =>
    obtain ⟨-, hs'⟩ := Option.ite_none_right_eq_some.mp hstep
    cases hs'
    split
    · exact ⟨rfl, rfl⟩
    · exact ⟨rfl, rfl⟩
  | pop =>
    obtain ⟨-, htake⟩ := Option.ite_none_right_eq_some.mp hstep
    split at htake <;> cases htake
    · exact ⟨rfl, rfl⟩
    · exact ⟨rfl, rfl⟩
  | claim l =>
    obtain ⟨-, hs'⟩ := Option.ite_none_right_eq_some.mp hstep
    cases hs'
    split
    · exact ⟨rfl, rfl⟩
    split
    · exact ⟨rfl, rfl⟩
    · exact ⟨rfl, rfl⟩
  | cancel =>
    cases hstep
    exact ⟨rfl, rfl⟩
  | stop =>
    cases hstep
    exact ⟨rfl, rfl⟩
  | _ =>
    obtain ⟨-, hs'⟩ := Option.ite_none_right_eq_some.mp hstep
    cases hs'
    exact ⟨rfl, rfl⟩

private theorem Accounts.pop (h : Accounts s) (hstep : s.step .pop = some s') : Accounts s' := by
  obtain ⟨-, htake⟩ := Option.ite_none_right_eq_some.mp hstep
  have htotal := h.total
  split at htake
  · rename_i slot queue hqueue
    cases htake
    rw [hqueue, List.countP_cons_of_pos rfl] at htotal
    refine ⟨?_, h.caller, fun slot' hslot' => ?_, ?_, ?_, ?_, h.serial, h.returned⟩
    · have hcount : ({ slot } :: s.loops).countP loop_t.uncounted = s.loops.countP loop_t.uncounted + 1 :=
        List.countP_cons_of_pos rfl
      simp only [hcount]
      omega
    · exact h.queued slot' (hqueue ▸ List.mem_cons_of_mem _ hslot')
    · exact List.forall_mem_cons.mpr ⟨h.queued slot (hqueue ▸ List.mem_cons_self), h.loops⟩
    · exact List.forall_mem_cons.mpr ⟨fun hinline => (by cases hinline), h.inline⟩
    · rw [List.countP_cons_of_neg Bool.false_ne_true]
      exact h.single
  · rename_i queue hqueue
    cases htake
    rw [hqueue, List.countP_cons_of_neg Bool.false_ne_true] at htotal
    refine ⟨htotal, h.caller, fun slot' hslot' => ?_, h.loops, h.inline, h.single, h.serial, h.returned⟩
    exact h.queued slot' (hqueue ▸ List.mem_cons_of_mem _ hslot')
  · cases htake

private theorem Accounts.clear (h : Accounts s) :
    Accounts { s with queue := [], discarded := s.discarded ++ s.queue.filter task_t.is_helper } := by
  have htotal := h.total
  refine ⟨?_, h.caller, nofun, h.loops, h.inline, h.single, h.serial, h.returned⟩
  simp only [List.countP_nil, List.length_append, ← List.countP_eq_length_filter]
  omega

private theorem Accounts.other_push (h : Accounts s) : Accounts { s with queue := s.queue ++ [.other] } := by
  refine ⟨?_, h.caller, fun slot hslot => ?_, h.loops, h.inline, h.single, h.serial, h.returned⟩
  · have hcount : [task_t.other].countP task_t.is_helper = 0 := rfl
    rw [List.countP_append, hcount]
    exact h.total
  · obtain hold | hnew := List.mem_append.mp hslot
    · exact h.queued slot hold
    · cases List.mem_singleton.mp hnew

private theorem Accounts.claim (h : Accounts s) (hstep : s.step (.claim l) = some s') : Accounts s' := by
  obtain ⟨⟨hl, hpc⟩, hs'⟩ := Option.ite_none_right_eq_some.mp hstep
  cases hs'
  have hcounted : l.uncounted = true := by rw [loop_t.uncounted, hpc]; rfl
  have hdone : Accounts (s.move l .done) := h.move hl hcounted
  have hbody : Accounts (s.move l (.body s.next_index)) := h.move hl hcounted
  split
  · exact hdone
  split
  · exact { hdone with }
  · exact { hbody with }

/-- A step of the caller between its waits. -/
theorem Accounts.wait {caller : caller_t} (h : Accounts s) (hcaller : s.caller.slot = none)
    (hremaining : s.caller.remaining s.spawn = 0) (hslot : caller.slot = none) (hnone : caller.remaining s.spawn = 0)
    (hserial : caller.in_serial → s.spawn = 0) (hreturned : caller = .returned → s.spawn ≤ s.workers_done) :
    Accounts { s with caller } := by
  apply h.set_caller _ _ _ hserial hreturned
  · rw [hnone, hremaining]
  · intro slot hmem
    rw [hslot] at hmem
    cases hmem
  · intro slot hinline
    rw [hinline] at hcaller
    cases hcaller

theorem Accounts.step {op : op_t} (h : Accounts s) (hstep : s.step op = some s') : Accounts s' := by
  cases op with
  | serial_call i =>
    obtain ⟨hcaller, hs'⟩ := Option.ite_none_right_eq_some.mp hstep
    have hspawn : s.spawn = 0 := h.serial (by rw [hcaller]; trivial)
    split at hs' <;> cases hs'
    · have hbody : Accounts { s with caller := .serial_body i } :=
        h.wait (by rw [hcaller]; rfl) (by rw [hcaller]; rfl) rfl rfl (fun _ => hspawn) nofun
      exact { hbody with }
    · exact h.wait (by rw [hcaller]; rfl) (by rw [hcaller]; rfl) rfl rfl nofun fun _ => hspawn ▸ Nat.zero_le _
  | serial_return i =>
    obtain ⟨hcaller, hs'⟩ := Option.ite_none_right_eq_some.mp hstep
    cases hs'
    have hspawn : s.spawn = 0 := h.serial (by rw [hcaller]; trivial)
    exact h.wait (by rw [hcaller]; rfl) (by rw [hcaller]; rfl) rfl rfl (fun _ => hspawn) nofun
  | submit_test slot =>
    obtain ⟨hcaller, hs'⟩ := Option.ite_none_right_eq_some.mp hstep
    cases hs'
    have hslot : s.caller.slot = some slot := by rw [hcaller]; rfl
    have hremaining : s.caller.remaining s.spawn = s.spawn - slot := by rw [hcaller]; rfl
    have hinline : ∀ slot', s.caller ≠ .inline slot' := by rw [hcaller]; nofun
    split
    · exact h.reject hslot hremaining hinline
    · exact h.set_caller hremaining.symm (fun slot' hslot' => h.caller slot' (hslot.trans hslot')) hinline nofun nofun
  | submit_push slot =>
    obtain ⟨hcaller, hs'⟩ := Option.ite_none_right_eq_some.mp hstep
    cases hs'
    split
    · exact h.reject (by rw [hcaller]; rfl) (by rw [hcaller]; rfl) (by rw [hcaller]; nofun)
    · exact h.push hcaller
  | pop => exact h.pop hstep
  | claim l => exact h.claim hstep
  | body_return l i =>
    obtain ⟨⟨hl, hpc⟩, hs'⟩ := Option.ite_none_right_eq_some.mp hstep
    cases hs'
    exact h.move hl (by rw [loop_t.uncounted, hpc]; rfl)
  | done l =>
    obtain ⟨⟨hl, hpc⟩, hs'⟩ := Option.ite_none_right_eq_some.mp hstep
    cases hs'
    exact h.done hl hpc
  | notify l =>
    obtain ⟨⟨hl, hpc⟩, hs'⟩ := Option.ite_none_right_eq_some.mp hstep
    cases hs'
    exact h.notify hl hpc
  | wait_test =>
    obtain ⟨hcaller, hs'⟩ := Option.ite_none_right_eq_some.mp hstep
    cases hs'
    apply h.wait (by rw [hcaller]; rfl) (by rw [hcaller]; rfl)
    · split <;> rfl
    · split <;> rfl
    · split <;> nofun
    · split
      · rename_i hdone
        exact fun _ => hdone
      · nofun
  | block =>
    obtain ⟨hcaller, hs'⟩ := Option.ite_none_right_eq_some.mp hstep
    cases hs'
    exact h.wait (by rw [hcaller]; rfl) (by rw [hcaller]; rfl) rfl rfl nofun nofun
  | wake =>
    obtain ⟨hcaller, hs'⟩ := Option.ite_none_right_eq_some.mp hstep
    cases hs'
    exact h.wait (by rw [hcaller]; rfl) (by rw [hcaller]; rfl) rfl rfl nofun nofun
  | cancel =>
    cases hstep
    exact { h with }
  | stop =>
    cases hstep
    exact { h with }
  | clear =>
    obtain ⟨-, hs'⟩ := Option.ite_none_right_eq_some.mp hstep
    cases hs'
    exact h.clear
  | worker_exit =>
    obtain ⟨-, hs'⟩ := Option.ite_none_right_eq_some.mp hstep
    cases hs'
    exact { h with }
  | other_push =>
    obtain ⟨-, hs'⟩ := Option.ite_none_right_eq_some.mp hstep
    cases hs'
    exact h.other_push
  | other_end =>
    obtain ⟨-, hs'⟩ := Option.ite_none_right_eq_some.mp hstep
    cases hs'
    exact { h with }

/-- The serial fallback has no helpers. -/
theorem Accounts.no_loops (h : Accounts s) (hspawn : s.spawn = 0) : s.loops = [] := by
  apply List.eq_nil_iff_forall_not_mem.mpr
  intro l hl
  have hlt := h.loops l hl
  omega

/-- With all slots counted as done, the loops that are left have only to notify. -/
theorem Accounts.all_done (h : Accounts s) (hdone : s.spawn ≤ s.workers_done) :
    (∀ l ∈ s.loops, l.pc = .notify) ∧ (∀ slot, .helper slot ∉ s.queue) ∧ s.discarded = [] := by
  have htotal := h.total
  refine ⟨fun l hl => ?_, fun slot hslot => ?_, ?_⟩
  · have hnone : s.loops.countP loop_t.uncounted = 0 := by omega
    have hcounted := List.countP_eq_zero.mp hnone l hl
    simpa [loop_t.uncounted] using hcounted
  · have hnone : s.queue.countP task_t.is_helper = 0 := by omega
    exact List.countP_eq_zero.mp hnone _ hslot rfl
  · apply List.length_eq_zero_iff.mp
    omega

end

end slop.core.infra.pool
