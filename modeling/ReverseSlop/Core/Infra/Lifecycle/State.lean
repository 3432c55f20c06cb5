import ReverseSlop.Core.Infra.Settings
import ReverseSlop.Core.Runtime.DriverAutoload
import ReverseSlop.Library.Transition

namespace slop.core.infra.lifecycle

open slop.core.runtime

inductive stage_t where
  | runtime_pool | process_services | kernel_bridge | settings | mcp_server | frontend | done
  deriving DecidableEq

structure config_t where
  load_driver : Bool := true
  mcp_onboarding : Bool := true

structure boot_result_t where
  kernel_attempted : Bool := false
  kernel_ok : Bool := false
  kernel_detail : String := ""
  mcp_ok : Bool := false
  mcp_port : UInt16 := 0
  first_run : Bool := false

/-- The calls of `ensure_loaded_real` that the kernel thread makes. -/
inductive call_t where
  | first | second | third
  deriving DecidableEq

/-- What the kernel thread does next. -/
inductive thread_pc_t where
  | probe (call : call_t)
  | spawn (call : call_t)
  | reprobe (call : call_t) (tail : String)
  | report
  | registry
  | exited
  deriving DecidableEq

/-- The engine, its settings file and the driver. Not in the program: the settings that were
changed, the reports of the kernel thread's calls, whether a mapper call brought the driver up,
whether an unload was requested, and the drivers that it unloaded. -/
structure engine_t where
  started : Bool := false
  torn_down : Bool := false
  stage : stage_t := .runtime_pool
  cfg : config_t := {}
  result : boot_result_t := {}
  kernel_done : Bool := false
  thread : Option thread_pc_t := none
  report : driver_autoload.load_report_t := {}
  g_data : settings.object_t := settings.empty
  file : settings.file_t
  driver : Option driver_autoload.driver_t
  changed : List String := []
  attempts : List driver_autoload.load_report_t := []
  brought_up : Bool := false
  requested : Bool := false
  unloaded : List driver_autoload.driver_t := []

/-- Before `begin`; another program may have loaded the driver, and left it quiesced. -/
def engine_t.initial (file : settings.file_t) (quiesced : Option Bool) : engine_t :=
  { file, driver := quiesced.map fun quiesced => { own := false, quiesced } }

/-- What `start_mcp` gets from outside: the port in the environment, and the port that a start
of the server binds. -/
structure mcp_env_t where
  env_port : Option Int := none
  start : UInt16 → Option UInt16
  restart : UInt16 → Option UInt16

/-- The environment's port goes before that of the settings, if it is one. -/
def mcp_env_t.wanted (env : mcp_env_t) (port : UInt16) : UInt16 :=
  match env.env_port with
  | some p => if 0 < p ∧ p < 65536 then UInt16.ofInt p else port
  | none => port

def engine_t.set (s : engine_t) (call : settings.setter_t) : engine_t :=
  { s with g_data := settings.set s.g_data call, changed := s.changed ++ call.keys }

/-- The server runs; the first time, clients are told of it. The flag says whether the end was
reached: a getter may throw. -/
def engine_t.onboard (s : engine_t) (bound : UInt16) (ephemeral : Bool) : engine_t × Bool :=
  let s := { s with result := { s.result with mcp_ok := true, mcp_port := bound } }
  if !s.cfg.mcp_onboarding || ephemeral then (s, true)
  else
    match settings.mcp_onboarded s.g_data with
    | none => (s, false)
    | some true => (s, true)
    | some false => (s.set (.set_mcp_onboarded true), true)

def engine_t.start_mcp (s : engine_t) (env : mcp_env_t) : engine_t × Bool :=
  match settings.mcp_enabled s.g_data with
  | none => (s, false)
  | some false => (s, true)
  | some true =>
    match settings.mcp_port s.g_data, settings.mcp_token s.g_data with
    | some port, some _ =>
      match env.start (env.wanted port) with
      | some bound => s.onboard bound false
      | none =>
        match env.restart 0 with
        | some bound => s.onboard bound true
        | none => (s, true)
    | _, _ => (s, false)

def engine_t.begin (s : engine_t) (cfg : config_t) : engine_t :=
  if s.started then s
  else if cfg.load_driver then
    { s with started := true, cfg, stage := .kernel_bridge, thread := some (.probe .first) }
  else
    { s with
      started := true
      cfg
      stage := .kernel_bridge
      result := { s.result with kernel_detail := "kernel bridge skipped by request" }
      kernel_done := true }

/-- One stage of `advance`; a call goes on as long as the stages come to an end. -/
def engine_t.advance (s : engine_t) (env : mcp_env_t) : engine_t :=
  match s.stage with
  | .kernel_bridge => if s.kernel_done then { s with stage := .settings } else s
  | .settings =>
    { s with
      stage := .mcp_server
      g_data := settings.load s.file
      result := { s.result with first_run := s.file.is_missing } }
  | .mcp_server => if (s.start_mcp env).2 then { (s.start_mcp env).1 with stage := .frontend } else (s.start_mcp env).1
  | .frontend => { s with stage := .done }
  | .runtime_pool | .process_services | .done => s

/-- A call of `ensure_loaded_real` returns to the kernel thread. A driver that was already
loaded is looked for a second time, and the mapper runs again if it is gone. -/
def engine_t.call_over (s : engine_t) (call : call_t) (r : driver_autoload.load_report_t) : engine_t :=
  match call with
  | .first =>
    { s with
      attempts := s.attempts ++ [r]
      report := r
      thread := some (if r.was_loaded then .probe .second else .report) }
  | .second => { s with attempts := s.attempts ++ [r], thread := some (if r.was_loaded then .report else .probe .third) }
  | .third => { s with attempts := s.attempts ++ [r], report := r, thread := some .report }

/-- What the boot screen is told about the kernel stage. -/
def kernel_detail (report : driver_autoload.load_report_t) : String :=
  if report.was_loaded then "slopdrvr already loaded"
  else if report.ok then "mapper run complete, device \\\\.\\slopdrvr present"
  else if report.error ≠ "" then
    if report.log_tail ≠ "" then report.error ++ "\n" ++ report.log_tail else report.error
  else "kernel bridge unavailable"

inductive op_t where
  | begin (cfg : config_t)
  | advance (env : mcp_env_t)
  | tick
  /-- With what the query of the service key, the arming and the unloading come to. -/
  | shutdown (identity : Option String) (arm : Bool) (status : UInt32)
  | set (call : settings.setter_t)
  /-- The steps of the kernel thread. -/
  | probe (artifacts_available unloaded gone : Bool)
  | spawn (code : Int) (tail : String) (loads : Bool)
  | reprobe (unloaded gone : Bool)
  | report
  | registry
  /-- Other programs load the driver, unload it, or leave it quiesced. -/
  | foreign_load
  | foreign_unload
  | foreign_quiesce

/-- The first call saves the settings, and requests the unloading of the driver. -/
def engine_t.shutdown (s : engine_t) (identity : Option String) (arm : Bool) (status : UInt32) : engine_t :=
  let s := { s with torn_down := true, file := if s.started then settings.save s.g_data else s.file }
  if !s.cfg.load_driver then s
  else
    let driver := driver_autoload.request_driver_unload s.driver identity arm status
    { s with
      driver
      requested := true
      unloaded := if driver.isNone then s.unloaded ++ s.driver.toList else s.unloaded }

/-- One step of the main thread, of a thread that changes a setting, of the kernel thread, or of
another program. -/
def engine_t.step (s : engine_t) : op_t → Option engine_t
  | .begin cfg => some (s.begin cfg)
  | .advance env => some (s.advance env)
  | .tick => some s
  | .shutdown identity arm status =>
    if s.torn_down then some s
    -- the kernel thread is joined
    else if s.thread = none ∨ s.thread = some .exited then some (s.shutdown identity arm status)
    else none
  | .set call => some (s.set call)
  | .probe artifacts_available unloaded gone =>
    match s.thread with
    | some (.probe call) =>
      let (present, driver) := driver_autoload.probe s.driver unloaded gone
      let s := { s with driver }
      if present || !artifacts_available then
        some (s.call_over call (driver_autoload.ensure_loaded_with artifacts_available present 0 "" false))
      else some { s with thread := some (.spawn call) }
    | _ => none
  | .spawn code tail loads =>
    match s.thread with
    | some (.spawn call) =>
      let s :=
        { s with
          driver := driver_autoload.spawn s.driver loads
          brought_up := s.brought_up || (s.driver.isNone && loads) }
      if code ≠ 0 then some (s.call_over call (driver_autoload.ensure_loaded_with true false code tail false))
      else some { s with thread := some (.reprobe call tail) }
    | _ => none
  | .reprobe unloaded gone =>
    match s.thread with
    | some (.reprobe call tail) =>
      let (present, driver) := driver_autoload.probe s.driver unloaded gone
      let s := { s with driver }
      some (s.call_over call (driver_autoload.ensure_loaded_with true false 0 tail present))
    | _ => none
  | .report =>
    if s.thread = some .report then
      some
        { s with
          thread := some .registry
          result :=
            { s.result with
              kernel_attempted := s.report.attempted
              kernel_detail := kernel_detail s.report
              kernel_ok := s.report.ok || s.report.was_loaded } }
    else none
  | .registry => if s.thread = some .registry then some { s with thread := some .exited, kernel_done := true } else none
  | .foreign_load => if s.driver = none then some { s with driver := some { own := false } } else none
  | .foreign_unload => if s.driver = none then none else some { s with driver := none }
  | .foreign_quiesce => some { s with driver := s.driver.map fun d => { d with quiesced := true } }

/-- The steps of the kernel thread and of other programs. -/
def op_t.outside : op_t → Bool
  | .probe .. | .spawn .. | .reprobe .. | .report | .registry | .foreign_load | .foreign_unload | .foreign_quiesce => true
  | .begin _ | .advance _ | .tick | .shutdown .. | .set _ => false

/-- The kernel thread is between the two probes of a call. -/
def thread_pc_t.mapping : thread_pc_t → Bool
  | .spawn _ | .reprobe .. => true
  | .probe _ | .report | .registry | .exited => false

theorem call_over_eq (s : engine_t) (call : call_t) (r : driver_autoload.load_report_t) :
    ∃ report pc, pc.mapping = false ∧
      s.call_over call r = { s with attempts := s.attempts ++ [r], report, thread := some pc } := by
  cases call with
  | first =>
    refine ⟨r, if r.was_loaded then .probe .second else .report, ?_, rfl⟩
    split <;> rfl
  | second =>
    refine ⟨s.report, if r.was_loaded then .report else .probe .third, ?_, rfl⟩
    split <;> rfl
  | third => exact ⟨r, .report, rfl, rfl⟩

theorem onboard_eq (s : engine_t) (bound : UInt16) (ephemeral : Bool) :
    ∃ g_data result changed, (s.onboard bound ephemeral).1 = { s with g_data, result, changed } := by
  rw [engine_t.onboard]
  simp only
  split
  · exact ⟨_, _, _, rfl⟩
  split <;> exact ⟨_, _, _, rfl⟩

theorem start_mcp_eq (s : engine_t) (env : mcp_env_t) :
    ∃ g_data result changed, (s.start_mcp env).1 = { s with g_data, result, changed } := by
  rw [engine_t.start_mcp]
  split
  · exact ⟨_, _, _, rfl⟩
  · exact ⟨_, _, _, rfl⟩
  split
  · split
    · exact onboard_eq s _ _
    split
    · exact onboard_eq s _ _
    · exact ⟨_, _, _, rfl⟩
  · exact ⟨_, _, _, rfl⟩

/-- Booting leaves the driver and the kernel thread alone. -/
theorem advance_eq (s : engine_t) (env : mcp_env_t) :
    ∃ stage g_data result changed, s.advance env = { s with stage, g_data, result, changed } := by
  rw [engine_t.advance]
  split
  · split
    · exact ⟨_, _, _, _, rfl⟩
    · exact ⟨_, _, _, _, rfl⟩
  · exact ⟨_, _, _, _, rfl⟩
  · obtain ⟨g_data, result, changed, hstart⟩ := start_mcp_eq s env
    rw [hstart]
    split
    · exact ⟨_, _, _, _, rfl⟩
    · exact ⟨_, _, _, _, rfl⟩
  · exact ⟨_, _, _, _, rfl⟩
  · exact ⟨_, _, _, _, rfl⟩
  · exact ⟨_, _, _, _, rfl⟩
  · exact ⟨_, _, _, _, rfl⟩

section

variable {s s' : engine_t}

/-- Only the first call of `shutdown` does anything. -/
theorem shutdown_cases {identity : Option String} {arm : Bool} {status : UInt32}
    (hstep : s.step (.shutdown identity arm status) = some s') :
    s' = s ∨ s.torn_down = false ∧ s' = s.shutdown identity arm status := by
  rw [engine_t.step] at hstep
  split at hstep
  · cases hstep
    exact Or.inl rfl
  · rename_i htorn
    obtain ⟨-, hs'⟩ := Option.ite_none_right_eq_some.mp hstep
    cases hs'
    exact Or.inr ⟨eq_false_of_ne_true htorn, rfl⟩

theorem probe_cases {artifacts_available unloaded gone : Bool}
    (hstep : s.step (.probe artifacts_available unloaded gone) = some s') :
    ∃ call present driver, s.thread = some (.probe call) ∧
      driver_autoload.probe s.driver unloaded gone = (present, driver) ∧
      (s' = engine_t.call_over { s with driver } call
          (driver_autoload.ensure_loaded_with artifacts_available present 0 "" false) ∨
        present = false ∧ s' = { s with driver, thread := some (.spawn call) }) := by
  rw [engine_t.step] at hstep
  split at hstep
  · rename_i call hthread
    refine ⟨call, _, _, hthread, rfl, ?_⟩
    simp only at hstep
    split at hstep
    · cases hstep
      exact Or.inl rfl
    · rename_i hspawn
      cases hstep
      simp only [Bool.or_eq_true, not_or, Bool.not_eq_true] at hspawn
      exact Or.inr ⟨hspawn.1, rfl⟩
  · cases hstep

theorem spawn_cases {code : Int} {tail : String} {loads : Bool} (hstep : s.step (.spawn code tail loads) = some s') :
    ∃ call driver brought_up, s.thread = some (.spawn call) ∧ driver = driver_autoload.spawn s.driver loads ∧
      brought_up = (s.brought_up || (s.driver.isNone && loads)) ∧
      (s' = engine_t.call_over { s with driver, brought_up } call
          (driver_autoload.ensure_loaded_with true false code tail false) ∨
        s' = { s with driver, brought_up, thread := some (.reprobe call tail) }) := by
  rw [engine_t.step] at hstep
  split at hstep
  · rename_i call hthread
    refine ⟨call, _, _, hthread, rfl, rfl, ?_⟩
    simp only at hstep
    split at hstep
    · cases hstep
      exact Or.inl rfl
    · cases hstep
      exact Or.inr rfl
  · cases hstep

theorem reprobe_cases {unloaded gone : Bool} (hstep : s.step (.reprobe unloaded gone) = some s') :
    ∃ call tail present driver, s.thread = some (.reprobe call tail) ∧
      driver_autoload.probe s.driver unloaded gone = (present, driver) ∧
      s' = engine_t.call_over { s with driver } call
        (driver_autoload.ensure_loaded_with true false 0 tail present) := by
  rw [engine_t.step] at hstep
  split at hstep
  · rename_i call tail hthread
    cases hstep
    exact ⟨call, tail, _, _, hthread, rfl, rfl⟩
  · cases hstep

/-- The kernel thread and other programs leave the stage and the settings alone. -/
theorem outside_eq {op : op_t} (hop : op.outside = true) (hstep : s.step op = some s') :
    ∃ driver attempts report thread brought_up result kernel_done,
      s' = { s with driver, attempts, report, thread, brought_up, result, kernel_done } := by
  cases op with
  | probe artifacts_available unloaded gone =>
    obtain ⟨call, present, driver, -, -, rfl | ⟨-, rfl⟩⟩ := probe_cases hstep
    · obtain ⟨report, pc, -, hover⟩ := call_over_eq { s with driver } call _
      exact ⟨_, _, _, _, _, _, _, hover⟩
    · exact ⟨_, _, _, _, _, _, _, rfl⟩
  | spawn code tail loads =>
    obtain ⟨call, driver, brought_up, -, -, -, rfl | rfl⟩ := spawn_cases hstep
    · obtain ⟨report, pc, -, hover⟩ := call_over_eq { s with driver, brought_up } call _
      exact ⟨_, _, _, _, _, _, _, hover⟩
    · exact ⟨_, _, _, _, _, _, _, rfl⟩
  | reprobe unloaded gone =>
    obtain ⟨call, tail, present, driver, -, -, rfl⟩ := reprobe_cases hstep
    obtain ⟨report, pc, -, hover⟩ := call_over_eq { s with driver } call _
    exact ⟨_, _, _, _, _, _, _, hover⟩
  | report =>
    obtain ⟨-, hs'⟩ := Option.ite_none_right_eq_some.mp hstep
    cases hs'
    exact ⟨_, _, _, _, _, _, _, rfl⟩
  | registry =>
    obtain ⟨-, hs'⟩ := Option.ite_none_right_eq_some.mp hstep
    cases hs'
    exact ⟨_, _, _, _, _, _, _, rfl⟩
  | foreign_load =>
    obtain ⟨-, hs'⟩ := Option.ite_none_right_eq_some.mp hstep
    cases hs'
    exact ⟨_, _, _, _, _, _, _, rfl⟩
  | foreign_unload =>
    obtain ⟨-, hs'⟩ := Option.ite_none_left_eq_some.mp hstep
    cases hs'
    exact ⟨_, _, _, _, _, _, _, rfl⟩
  | foreign_quiesce =>
    cases hstep
    exact ⟨_, _, _, _, _, _, _, rfl⟩
  | begin cfg => cases hop
  | advance env => cases hop
  | tick => cases hop
  | shutdown identity arm status => cases hop
  | set call => cases hop

end

end slop.core.infra.lifecycle
