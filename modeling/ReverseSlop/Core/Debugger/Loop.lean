import ReverseSlop.Core.Debugger.Commands
import ReverseSlop.Library.Transition

namespace slop.core.debugger

open runtime Buffer

structure exception_t where
  tid : UInt32
  code : UInt32
  address : UInt64
  first_chance : Bool := true
  /-- `ExceptionInformation`, with `NumberParameters` entries. -/
  info : List UInt64 := []
  /-- The registers the thread stopped with. -/
  ctx : thread_context_t := {}

inductive win_event_t where
  | create_thread (tid : UInt32) (start : UInt64)
  | exit_thread (tid : UInt32)
  | load_dll (tid : UInt32) (base : UInt64)
  | unload_dll (tid : UInt32) (base : UInt64)
  | exit_process (tid : UInt32)
  | exception (e : exception_t)
  | other (tid : UInt32)

/-- What the loop does after an event. -/
inductive outcome_t where
  | continue_with (status : continue_status_t)
  | pause_with (status : continue_status_t)
  | stop_all
  deriving DecidableEq

/-- `%X` -/
def hex_upper (n : Nat) : String := String.ofList ((Nat.toDigits 16 n).map Char.toUpper)

/-- `%08X` -/
def hex_upper_8 (n : Nat) : String :=
  String.ofList (List.replicate (8 - (hex_upper n).length) '0') ++ hex_upper n

/-- Put the byte of the breakpoint sat on back, or drop the entry if it was meant for
one hit. A pointer that is dead is undefined behaviour. -/
def debugger_t.rearm_hit (io : backend_t) (s : debugger_t) : Option debugger_t :=
  match s.hit_bp with
  | none => some s
  | some p =>
    match s.bps.deref p with
    | none => none
    | some bp =>
      if bp.one_shot then
        let set_sites := s.set_sites.filter (· ≠ bp.addr)
        some { s with bps := bp_store_t.remove s.bps bp.addr, hit_bp := none, set_sites }
      else some { s.arm_at io p.index with hit_bp := none }

/-- The condition of a breakpoint is valid and false. -/
def breakpoint_t.condition_false (bp : breakpoint_t) (ctx : thread_context_t) : Bool :=
  let ce := parse_condition bp.condition
  !bp.condition.isEmpty && ce.valid && !eval_condition ce ctx

/-- An armed breakpoint is hit: it is disarmed, and the loop pauses unless the
condition is false or the entry is a tracepoint. -/
def debugger_t.bp_hit (io : backend_t) (s : debugger_t) (e : exception_t) (i : Nat) (bp : breakpoint_t) :
    debugger_t × outcome_t :=
  let site := bp.addr
  let s := s.disarm_at io i
  let s := { s with bps := s.bps.modify i fun b => { b with hits := b.hits + 1 } }
  let ctx := (io.get_thread_context s.target e.tid).getD {}
  let out : debug_event_t := { tid := e.tid, exc_code := e.code, address := e.address, ctx }
  let hit := { s with hit_bp := some (s.bps.ptr i), hit_site := site }
  if bp.condition_false ctx then
    let text := "bp @ " ++ toString site.toNat ++ " skipped (condition '" ++ bp.condition ++ "' false)"
    ({ hit with target := set_tf io hit.target e.tid true, resume_mode := .step_rearm }.push_event
      { out with kind := .note, text }, .continue_with .DBG_CONTINUE)
  else if bp.auto_continue then
    let text := if bp.log_text.isEmpty then "bp @ " ++ toString site.toNat else bp.log_text
    ({ hit with target := set_tf io hit.target e.tid true, resume_mode := .step_rearm }.push_event
      { out with kind := .note, text, address := site }, .continue_with .DBG_CONTINUE)
  else (hit.push_event { out with kind := .bp_hit, address := site }, .pause_with .DBG_CONTINUE)

/-- The temporary breakpoint at an address, if there is one. -/
def debugger_t.temporary_at (s : debugger_t) (site : UInt64) : Option UInt64 :=
  match bp_store_t.find s.bps site with
  | none => none
  | some i => if (s.bps.elems[i]?).any fun bp => bp.temporary then some site else none

/-- A breakpoint exception; Windows reports the address past the one-byte int3. -/
def debugger_t.handle_breakpoint (io : backend_t) (s : debugger_t) (e : exception_t) : debugger_t × outcome_t :=
  let site := e.address - 1
  let found := bp_store_t.find s.bps site
  let ctx := (io.get_thread_context s.target e.tid).getD {}
  let out : debug_event_t := { tid := e.tid, exc_code := e.code, address := e.address, ctx }
  let foreign :=
    ({ s with landed := s.temporary_at site }.push_event { out with kind := .exception, text := "system breakpoint" },
      outcome_t.pause_with .DBG_CONTINUE)
  let temp_landed :=
    let t := match found with
      | none => s
      | some i =>
        let t := s.disarm_at io i
        { t with bps := bp_store_t.remove t.bps site }
    ({ t with landed := s.temporary_at site }.push_event { out with kind := .single_step },
      outcome_t.pause_with .DBG_CONTINUE)
  let planned := s.resume_mode = .apply_plan ∧ s.pending_plan.kind = .temp_breakpoint ∧
    site = s.pending_plan.temp_addr
  match found.bind fun i => (s.bps.elems[i]?).map fun bp => (i, bp) with
  | none => if planned then temp_landed else foreign
  | some (i, bp) => if bp.armed then s.bp_hit io e i bp else if planned then temp_landed else foreign

/-- The watchpoint a fault belongs to. -/
def watch_hit (fault : UInt64) (w : watchpoint_t) : Bool :=
  let page := fault &&& ~~~0xFFF
  (w.addr ≤ fault && fault < w.addr + w.len) || (w.addr ≤ page && page < w.addr + w.len)

def debugger_t.handle_guard_page (io : backend_t) (s : debugger_t) (e : exception_t) : debugger_t × outcome_t :=
  let access_type := e.info.getD 0 0
  let fault := e.info.getD 1 e.address
  let ctx := (io.get_thread_context s.target e.tid).getD {}
  let out : debug_event_t := { tid := e.tid, exc_code := e.code, address := e.address, ctx }
  match s.watches.findIdx? (watch_hit fault) with
  | none => (s.push_event { out with kind := .exception, text := "guard page (foreign)" },
      .pause_with .DBG_EXCEPTION_NOT_HANDLED)
  | some i =>
    match s.watches[i]? with
    | none => (s, .continue_with .DBG_CONTINUE)
    | some w =>
      let w := { w with hits := w.hits + 1 }
      let access := if access_type = 0 then "READ" else if access_type = 1 then "WRITE" else "EXEC"
      let text := "watchpoint " ++ access ++ " @ 0x" ++ hex_upper fault.toNat ++ " (hit #" ++ toString w.hits.toNat ++ ")"
      let target := ((io.protect_memory s.target w.addr w.len (w.orig_prot ||| kPageGuardFlag)).map Prod.fst).getD
        s.target
      ({ s with target, watches := s.watches.set i w }.push_event { out with kind := .bp_hit, address := fault, text },
        .continue_with .DBG_CONTINUE)

/-- A single step either puts a stepped-over breakpoint back or is the user's step. -/
def debugger_t.handle_single_step (io : backend_t) (s : debugger_t) (e : exception_t) :
    Option (debugger_t × outcome_t) :=
  let out : debug_event_t := { tid := e.tid, exc_code := e.code, address := e.address, kind := .single_step }
  if s.resume_mode = .step_rearm then
    (s.rearm_hit io).map fun t =>
      let t := { t with rearm_pause := false, resume_mode := .none }
      if s.rearm_pause then (t.push_event out, .pause_with .DBG_CONTINUE) else (t, .continue_with .DBG_CONTINUE)
  else
    let ctx := (io.get_thread_context s.target e.tid).getD {}
    some (s.push_event { out with ctx }, .pause_with .DBG_CONTINUE)

def debugger_t.handle_other (io : backend_t) (s : debugger_t) (e : exception_t) : debugger_t × outcome_t :=
  let ctx := (io.get_thread_context s.target e.tid).getD {}
  let chance := if e.first_chance then " (first chance)" else ""
  let text := "exception " ++ hex_upper_8 e.code.toNat ++ chance
  (s.push_event { kind := .exception, tid := e.tid, exc_code := e.code, address := e.address, ctx, text },
    .pause_with .DBG_EXCEPTION_NOT_HANDLED)

def debugger_t.handle_exception (io : backend_t) (s : debugger_t) (e : exception_t) :
    Option (debugger_t × outcome_t) :=
  let s := { s with target := s.target.set_thread e.tid e.ctx }
  if e.code = kStatusBreakpoint then some (s.handle_breakpoint io e)
  else if e.code = kStatusGuardPage then some (s.handle_guard_page io e)
  else if e.code = kStatusSingleStep then s.handle_single_step io e
  else some (s.handle_other io e)

def win_event_t.tid : win_event_t → UInt32
  | .create_thread tid _ | .exit_thread tid | .load_dll tid _ | .unload_dll tid _ | .exit_process tid | .other tid => tid
  | .exception e => e.tid

def debugger_t.handle_event (io : backend_t) (s : debugger_t) : win_event_t → Option (debugger_t × outcome_t)
  | .create_thread tid start =>
    some (s.push_event { kind := .thread_create, tid, address := start }, .continue_with .DBG_CONTINUE)
  | .exit_thread tid => some (s.push_event { kind := .thread_exit, tid }, .continue_with .DBG_CONTINUE)
  | .load_dll tid base =>
    some (s.push_event { kind := .dll_load, tid, address := base }, .continue_with .DBG_CONTINUE)
  | .unload_dll tid base =>
    some (s.push_event { kind := .dll_unload, tid, address := base }, .continue_with .DBG_CONTINUE)
  | .exit_process tid => some (s.push_event { kind := .process_exit, tid }, .stop_all)
  | .exception e => s.handle_exception io e
  | .other _ => some (s, .continue_with .DBG_CONTINUE)

/-- The state that the paused wait begins with. -/
def debugger_t.enter_pause (io : backend_t) (s : debugger_t) (tid : UInt32) (status : continue_status_t) :
    debugger_t :=
  { s with
    paused_tid := tid
    paused_ctx := (io.get_thread_context s.target tid).getD s.paused_ctx
    state := .paused
    resume_mode := .none
    loop := .paused tid status }

/-- One event, up to `ContinueDebugEvent` or the paused wait. -/
def debugger_t.loop_event (io : backend_t) (s : debugger_t) (ev : win_event_t) : Option debugger_t :=
  match s.handle_event io ev with
  | none => none
  | some (s, .continue_with _) => some { s with loop := .top }
  | some (s, .pause_with status) => some (s.enter_pause io ev.tid status)
  | some (s, .stop_all) => some { s with state := .idle, quit := true, loop := .exited }

/-- Borrow the byte at the temporary address and plant the int3. -/
def debugger_t.plant_temp (grow : Growth) (io : backend_t) (s : debugger_t) (temp_addr : UInt64) : debugger_t :=
  match io.read_byte s.target temp_addr with
  | none => s
  | some probe =>
    match io.write_memory s.target temp_addr 0xCC with
    | none => s
    | some target => { s with target, bps := bp_store_t.add grow s.bps temp_addr probe false }

/-- The plan the user queued is carried out and the thread released. -/
def debugger_t.apply_plan (grow : Growth) (io : backend_t) (s : debugger_t) (tid : UInt32) : Option debugger_t :=
  let sitting_on_hit := s.hit_bp.isSome
  match s.pending_plan.kind with
  | .trap_flag => some { s with
      target := set_tf io s.target tid true
      rearm_pause := sitting_on_hit
      resume_mode := if sitting_on_hit then .step_rearm else .none }
  | .temp_breakpoint =>
    ((s.plant_temp grow io s.pending_plan.temp_addr).rearm_hit io).map fun t => { t with resume_mode := .none }
  | .none => (s.rearm_hit io).map fun t => { t with resume_mode := .none }

/-- The paused wait ends: the user resumes, or the session is quitting. -/
def debugger_t.loop_wake (grow : Growth) (io : backend_t) (s : debugger_t) (tid : UInt32) : Option debugger_t :=
  if s.quit then some { s with resume_mode := .none, landed := none, loop := .exited }
  else (s.apply_plan grow io tid).map fun t => { t with state := .running, landed := none, loop := .top }

inductive command_t where
  | set_sw_breakpoint (va : UInt64)
  | set_hw_breakpoint (va : UInt64) (len type : UInt32)
  | clear_breakpoint (va : UInt64)
  | configure_breakpoint (va : UInt64) (condition log_text : String) (auto_continue one_shot : Bool)
  | set_register (name : String) (value : UInt64)
  | go
  | step_into
  | step_over
  | step_out

/-- What the debugger runs on: the growth of its vectors and its decoder. -/
structure host_t where
  grow : Growth
  engine : disasm.engine_t

def debugger_t.command (host : host_t) (io : backend_t) (s : debugger_t) : command_t → debugger_t
  | .set_sw_breakpoint va => (s.set_sw_breakpoint host.grow io va).2
  | .set_hw_breakpoint va len type => (s.set_hw_breakpoint host.grow io va len type).2
  | .clear_breakpoint va => (s.clear_breakpoint io va).2
  | .configure_breakpoint va condition log_text auto_continue one_shot =>
    (s.configure_breakpoint va condition log_text auto_continue one_shot).2
  | .set_register name value => (s.set_register io name value).2
  | .go => s.go
  | .step_into => s.step_into
  | .step_over => s.step_over host.engine io
  | .step_out => s.step_out io

/-- The steps of a session. Commands come from other threads at any time; each
critical section and the handling of one event is one step. -/
inductive action_t where
  | command (c : command_t)
  | poll
  | timeout
  | event (ev : win_event_t)
  | wake
  | detach_disarm
  | detach_quit
  | detach_finish

/-- One step; `none` is undefined behaviour. -/
def debugger_t.step (host : host_t) (io : backend_t) (s : debugger_t) : action_t → Option debugger_t
  | .command c => some (s.command host io c)
  | .poll => some { s with loop := if s.quit then .exited else .waiting }
  | .timeout => some { s with loop := .top }
  | .event ev => s.loop_event io ev
  | .wake =>
    match s.loop with
    | .paused tid _ => s.loop_wake host.grow io tid
    | _ => some s
  | .detach_disarm => some (s.detach_disarm io)
  | .detach_quit => some s.detach_quit
  | .detach_finish => some s.detach_finish

/-- The step can come now. -/
def debugger_t.Enabled (s : debugger_t) : action_t → Prop
  | .command _ => s.detaching ≠ .done
  | .poll => s.loop = .top
  | .timeout | .event _ => s.loop = .waiting
  | .wake => s.loop.is_paused = true ∧ (s.quit = true ∨ s.resume_mode ≠ .none)
  | .detach_disarm => s.detaching = .none
  | .detach_quit => s.detaching = .disarmed
  | .detach_finish => s.detaching = .joining ∧ s.loop = .exited

instance (s : debugger_t) : (a : action_t) → Decidable (s.Enabled a)
  | .command _ => inferInstanceAs (Decidable (_ ≠ _))
  | .poll => inferInstanceAs (Decidable (_ = _))
  | .timeout => inferInstanceAs (Decidable (_ = _))
  | .event _ => inferInstanceAs (Decidable (_ = _))
  | .wake => inferInstanceAs (Decidable (_ ∧ _))
  | .detach_disarm => inferInstanceAs (Decidable (_ = _))
  | .detach_quit => inferInstanceAs (Decidable (_ = _))
  | .detach_finish => inferInstanceAs (Decidable (_ ∧ _))

/-- The guard of a step: it can come now, and a condition on it holds. -/
def guard (Ok : backend_t → debugger_t → action_t → Prop) (s : debugger_t) (x : backend_t × action_t) : Prop :=
  s.Enabled x.2 ∧ Ok x.1 s x.2

def debugger_t.step_on (host : host_t) (s : debugger_t) (x : backend_t × action_t) : Option debugger_t :=
  s.step host x.1 x.2

/-- The step relation, under a condition on the steps. -/
def Step (host : host_t) (Ok : backend_t → debugger_t → action_t → Prop) : debugger_t → debugger_t → Prop :=
  Transition.Step (guard Ok) (debugger_t.step_on host)

/-- A fresh session on a target. -/
def debugger_t.attached (target : target_t) : debugger_t := { target }

theorem msvc_next_gt (n : Nat) : n < max (n + 1) (n + n / 2) := by omega

/-- The growth of the vectors of the compiler the debugger is built with. -/
def msvc_growth : Growth := ⟨fun n => max (n + 1) (n + n / 2), msvc_next_gt⟩

/-- A backend on which everything but the debug registers works. -/
def user_backend : backend_t where
  read_ok _ _ := true
  write_ok _ := true
  protect_ok _ _ _ := true
  get_context_ok _ := true
  set_context_ok _ := true
  set_hw_ok := false

theorem user_backend_works : user_backend.MemoryWorks := ⟨fun _ _ => rfl, fun _ => rfl, fun _ _ _ => rfl⟩

/-- A host without a decoder. -/
def plain_host : host_t := ⟨msvc_growth, ⟨fun _ _ => none⟩⟩

/-- A target of executable pages that hold one byte over and over. -/
def filled_target (byte : UInt8) : target_t where
  mem _ := byte
  prot _ := 0x20
  threads _ := {}

/-- The steps of a list can be taken on a working backend. -/
theorem plain_run (G : debugger_t → action_t → Prop) [∀ s a, Decidable (G s a)]
    (Ok : backend_t → debugger_t → action_t → Prop) (s : debugger_t) (l : List action_t) (t : debugger_t → Bool)
    (hok : ∀ s a, G s a → Ok user_backend s a)
    (hrun : (Transition.run (fun s a => s.Enabled a ∧ G s a) (fun s a => s.step plain_host user_backend a) s l).any
      t = true) :
    ∃ s', Relation.ReflTransGen (Step plain_host Ok) s s' ∧ t s' = true := by
  obtain ⟨s', hreach, htest⟩ := Transition.run_any hrun
  refine ⟨s', Transition.reaches_mono ?_ hreach, htest⟩
  rintro u a ⟨henabled, hG⟩
  exact ⟨(user_backend, a), ⟨henabled, hok u a hG⟩, rfl⟩

end slop.core.debugger
