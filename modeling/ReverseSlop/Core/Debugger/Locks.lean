import ReverseSlop.Core.Debugger.Loop
import ReverseSlop.Library.Mutex

namespace slop.core.debugger

open runtime Mutex

/-! Where each function of the debugger locks `mu_`. Branches on data that no lock
depends on are left open; functions that never lock are `skip`. -/

namespace locks

def push_event : Code := .guarded .skip

def events_snapshot : Code := .guarded .skip

def breakpoints : Code := .guarded .skip

def configure_breakpoint : Code := .guarded .skip

def watchpoints : Code := .guarded .skip

/-- The event is pushed inside the guard, once both changes of protection succeed. -/
def set_watchpoint (io : backend_t) (s : debugger_t) (addr len : UInt64) : Code :=
  .guarded
    (if s.watches.any fun w => w.addr = addr then .skip
    else
      match io.protect_memory s.target addr len 0x04 with
      | none => .skip
      | some (target, prev) =>
        match io.protect_memory target addr len ((if prev ≠ 0 then prev else 0x04) ||| kPageGuardFlag) with
        | none => .skip
        | some _ => push_event)

def clear_watchpoint : Code := .guarded .skip

def set_register : Code := .guarded .skip

def paused_context : Code := .guarded .skip

def set_sw_breakpoint : Code := .guarded .skip

def set_hw_breakpoint : Code := .guarded .skip

def clear_breakpoint : Code := .guarded .skip

def suspend_all : Code := .skip

def resume_all : Code := .skip

def request_resume : Code := .guarded .skip

def go : Code := request_resume

def step_into : Code := request_resume

/-- The paused context is copied under the lock; the instruction is decoded outside. -/
def step_over : Code := .seq (.guarded .skip) request_resume

def step_out : Code := .seq (.guarded .skip) request_resume

/-- Each failure reports one event and returns. -/
def kattach : Code := .choice push_event .skip

/-- Parked slots are looked up in the store one by one. -/
def kdetach : Code := .loop (.choice (.guarded .skip) .skip)

def detach : Code :=
  .choice .skip
    (.seq (.guarded .skip)
      (.seq (.choice kdetach .skip)
        (.seq (.guarded .skip) push_event)))

/-- The verdict of the worker times out, is negative or positive. -/
def attach : Code :=
  .choice .skip
    (.seq (.choice kattach .skip)
      (.seq push_event (.choice detach (.choice .skip push_event))))

/-- An armed breakpoint: notes for a false condition or a tracepoint, then either the
re-arm is queued under the lock or the hit is reported. -/
def loop_bp_hit : Code :=
  .seq (.choice push_event .skip)
    (.seq (.choice push_event .skip) (.choice (.guarded .skip) push_event))

def loop_temp_landed : Code := .seq (.guarded .skip) (.seq (.choice (.guarded .skip) .skip) push_event)

def loop_breakpoint : Code := .seq (.guarded .skip) (.choice loop_bp_hit (.choice loop_temp_landed push_event))

def loop_guard_page : Code := .seq (.guarded .skip) (.choice (.seq push_event (.guarded .skip)) push_event)

def loop_single_step : Code :=
  .seq (.guarded .skip) (.choice (.seq (.guarded .skip) (.choice push_event .skip)) push_event)

def loop_exception : Code :=
  .seq (.guarded .skip)
    (.choice loop_breakpoint (.choice loop_guard_page (.choice loop_single_step push_event)))

/-- The state is saved under the lock, then the loop waits for the user and carries out
the plan. -/
def loop_pause : Code := .seq (.guarded .skip) (.guarded (.loop .wait))

/-- The debug loop: every other event reports itself, or is ignored. -/
def loop : Code :=
  .loop
    (.choice .skip
      (.seq (.choice loop_exception (.choice push_event .skip)) (.choice loop_pause .skip)))

def kpause : Code := .guarded .skip

def veh_bp_hit : Code :=
  .seq (.choice push_event .skip)
    (.seq (.choice push_event .skip)
      (.choice (.guarded .skip) (.seq (.guarded .skip) (.seq push_event kpause))))

def veh_temp_landed : Code := .seq (.guarded .skip) (.seq (.guarded .skip) (.seq push_event kpause))

def veh_breakpoint : Code :=
  .seq (.guarded .skip)
    (.choice veh_bp_hit (.seq (.guarded .skip) (.choice veh_temp_landed (.seq push_event kpause))))

def veh_single_step : Code :=
  .seq (.guarded .skip)
    (.choice (.seq (.guarded .skip) (.choice (.seq push_event kpause) .skip))
      (.seq (.choice (.guarded .skip) .skip) (.seq push_event kpause)))

def veh_guard_page : Code := .seq (.guarded .skip) (.choice (.seq push_event (.guarded .skip)) .skip)

def handle_veh_slot : Code := .choice veh_breakpoint (.choice veh_single_step (.choice veh_guard_page .skip))

/-- The wait is periodic: the lock is dropped to refresh the parked thread. -/
def kloop_pause : Code := .guarded (.loop (.seq (.choice (.unguarded .skip) .skip) .wait))

def kloop : Code :=
  .loop
    (.choice push_event
      (.choice (.seq (.loop (.choice handle_veh_slot .skip)) (.choice push_event .skip)) kloop_pause))

end locks

/-- What a thread can run: a public operation, the destructor, or one of the two loops. -/
inductive operation_t where
  | attach (pid : UInt32)
  | detach
  | destroy
  | set_sw_breakpoint (va : UInt64)
  | clear_breakpoint (va : UInt64)
  | set_hw_breakpoint (va : UInt64) (len type : UInt32)
  | breakpoints
  | configure_breakpoint (va : UInt64) (condition log_text : String) (auto_continue one_shot : Bool)
  | set_watchpoint (addr len : UInt64)
  | clear_watchpoint (addr : UInt64)
  | watchpoints
  | set_register (name : String) (value : UInt64)
  | go
  | step_into
  | step_over
  | step_out
  | paused_context
  | events_snapshot (max : Nat)
  | suspend_all
  | resume_all
  | loop
  | kloop

def operation_t.code (io : backend_t) (s : debugger_t) : operation_t → Code
  | .attach _ => locks.attach
  | .detach | .destroy => locks.detach
  | .set_sw_breakpoint _ => locks.set_sw_breakpoint
  | .clear_breakpoint _ => locks.clear_breakpoint
  | .set_hw_breakpoint _ _ _ => locks.set_hw_breakpoint
  | .breakpoints => locks.breakpoints
  | .configure_breakpoint _ _ _ _ _ => locks.configure_breakpoint
  | .set_watchpoint addr len => locks.set_watchpoint io s addr len
  | .clear_watchpoint _ => locks.clear_watchpoint
  | .watchpoints => locks.watchpoints
  | .set_register _ _ => locks.set_register
  | .go => locks.go
  | .step_into => locks.step_into
  | .step_over => locks.step_over
  | .step_out => locks.step_out
  | .paused_context => locks.paused_context
  | .events_snapshot _ => locks.events_snapshot
  | .suspend_all => locks.suspend_all
  | .resume_all => locks.resume_all
  | .loop => locks.loop
  | .kloop => locks.kloop

/-- A watchpoint can be set: none is at the address, and both changes of protection
succeed. -/
def CanWatch (io : backend_t) (s : debugger_t) (addr len : UInt64) : Prop :=
  (∀ w ∈ s.watches, w.addr ≠ addr) ∧ io.protect_ok addr len 0x04 = true ∧
    io.protect_ok addr len
      ((if s.target.prot (page_of addr) ≠ 0 then s.target.prot (page_of addr) else 0x04) ||| kPageGuardFlag) = true

section

variable {io : backend_t} {s : debugger_t} {addr len : UInt64}

theorem watched_iff : (s.watches.any fun w => w.addr = addr) = true ↔ ¬ ∀ w ∈ s.watches, w.addr ≠ addr := by
  simp only [List.any_eq_true, decide_eq_true_eq, not_forall, not_not, exists_prop]

theorem protect_memory_ok {t : target_t} {prot : UInt32} (hok : io.protect_ok addr len prot = true) :
    io.protect_memory t addr len prot = some ({ t with
      prot := fun page => if touches addr len page then prot else t.prot page }, t.prot (page_of addr)) :=
  if_pos hok

theorem protect_memory_fails {t : target_t} {prot : UInt32} (hfails : ¬ io.protect_ok addr len prot = true) :
    io.protect_memory t addr len prot = none :=
  if_neg hfails

/-- The event is pushed under the lock exactly when the watchpoint can be set. -/
theorem set_watchpoint_code (io : backend_t) (s : debugger_t) (addr len : UInt64) :
    (CanWatch io s addr len ∧ locks.set_watchpoint io s addr len = .guarded locks.push_event) ∨
      (¬ CanWatch io s addr len ∧ locks.set_watchpoint io s addr len = .guarded .skip) := by
  rw [locks.set_watchpoint, CanWatch]
  by_cases hwatched : (s.watches.any fun w => w.addr = addr) = true
  · rw [if_pos hwatched]
    exact Or.inr ⟨fun h => watched_iff.mp hwatched h.1, rfl⟩
  · have hfree : ∀ w ∈ s.watches, w.addr ≠ addr := not_not.mp (mt watched_iff.mpr hwatched)
    rw [if_neg hwatched]
    by_cases hfirst : io.protect_ok addr len 0x04 = true
    · rw [protect_memory_ok hfirst]
      by_cases hsecond : io.protect_ok addr len
          ((if s.target.prot (page_of addr) ≠ 0 then s.target.prot (page_of addr) else 0x04) ||| kPageGuardFlag) = true
      · exact Or.inl ⟨⟨hfree, hfirst, hsecond⟩, by simp only [protect_memory_ok hsecond]⟩
      · exact Or.inr ⟨fun h => hsecond h.2.2, by simp only [protect_memory_fails hsecond]⟩
    · rw [protect_memory_fails hfirst]
      exact Or.inr ⟨fun h => hfirst h.2.1, rfl⟩

/-- A thread acquires `mu_` while it holds it exactly when it sets a watchpoint that can be
set; no other operation and neither loop has such a path. -/
theorem self_deadlock_iff (io : backend_t) (s : debugger_t) (op : operation_t) :
    (∃ t, Path (op.code io s) t ∧ Deadlocks false t) ↔
      ∃ addr len, op = .set_watchpoint addr len ∧ CanWatch io s addr len := by
  cases op with
  | set_watchpoint addr len =>
    rw [operation_t.code]
    obtain ⟨hcan, hcode⟩ | ⟨hcannot, hcode⟩ := set_watchpoint_code io s addr len
    · rw [hcode]
      refine iff_of_true ⟨_, Path.guarded (Path.guarded Path.skip), trivial⟩ ⟨addr, len, rfl, hcan⟩
    · rw [hcode]
      refine iff_of_false ?_ ?_
      · rintro ⟨t, hpath, hdead⟩
        exact not_deadlocks_of_safe rfl hpath hdead
      · rintro ⟨addr', len', hop, hcan⟩
        cases hop
        exact hcannot hcan
  | _ =>
    refine iff_of_false ?_ ?_
    · rintro ⟨t, hpath, hdead⟩
      exact not_deadlocks_of_safe rfl hpath hdead
    · rintro ⟨addr, len, hop, -⟩
      cases hop

/-- Setting the first watchpoint of a session locks up its thread. -/
theorem set_watchpoint_self_deadlocks :
    ¬ ∀ (io : backend_t) (s : debugger_t) (op : operation_t) (t : List Event), Path (op.code io s) t →
      ¬ Deadlocks false t := by
  intro hlaw
  refine hlaw user_backend (debugger_t.attached (filled_target 0x90)) (.set_watchpoint 0x403000 8)
    [.acquire, .acquire, .release, .release] ?_ trivial
  exact Path.guarded (Path.guarded Path.skip)

end

end slop.core.debugger
