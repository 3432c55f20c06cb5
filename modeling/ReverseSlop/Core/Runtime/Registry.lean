import Mathlib.Data.List.Basic
import ReverseSlop.Library.Transition

namespace slop.core.runtime

inductive backend_kind_t where
  | user_mode | kernel
  deriving DecidableEq

inductive backend_pref_t where
  | auto_detect | force_user | force_kernel
  deriving DecidableEq

structure target_handle_t where
  native : Nat := 0
  pid : UInt32 := 0
  deriving DecidableEq

def target_handle_t.valid (h : target_handle_t) : Bool := h.native ≠ 0 && h.pid ≠ 0

/-- The value that stands in a handle of the kernel backend. -/
def kernel_sentinel : Nat := 1

/-- A handle that the system gives out: a multiple of four. -/
structure process_handle_t where
  value : Nat
  pos : 0 < value
  aligned : value % 4 = 0

/-- No process has the identifier zero. -/
def OpenProcess (pid : UInt32) (answer : Option process_handle_t) : Option process_handle_t :=
  if pid = 0 then none else answer

/-- A call to the system with a handle of a process. -/
inductive os_call_t where
  | opened (native : Nat)
  | close (native : Nat)
  | access (native : Nat)
  deriving DecidableEq

def os_call_t.native : os_call_t → Nat
  | .opened native | .close native | .access native => native

/-! The connection to the driver. -/

/-- The connection, and the process that the driver works on. -/
structure device_t where
  connected : Bool := false
  process_id : UInt32 := 0
  dtb : UInt64 := 0
  deriving DecidableEq

def device_t.clear_process_context (d : device_t) : device_t := { d with process_id := 0, dtb := 0 }

/-- The driver is asked only if there is no connection yet. -/
def device_t.connect (d : device_t) (answer : Bool) : device_t := { d with connected := d.connected || answer }

def device_t.disconnect (d : device_t) : device_t := { d.clear_process_context with connected := false }

def device_t.ready_for_pid (d : device_t) (pid : UInt32) : Bool :=
  d.connected && pid ≠ 0 && d.process_id = pid && d.dtb ≠ 0

/-! The user-mode backend. -/

/-- A handle with few rights is opened if one with all is refused. -/
def user_attach (pid : UInt32) (all few : Option process_handle_t) : target_handle_t :=
  { native := (((OpenProcess pid all).or (OpenProcess pid few)).map process_handle_t.value).getD 0, pid }

/-- The handle that is closed. -/
def user_detach (h : target_handle_t) : List os_call_t := if h.native = 0 then [] else [.close h.native]

/-- Where a read or a write of a backend goes: to a process by its handle, or to the driver. -/
inductive access_t where
  | handle (native : Nat)
  | driver (pid : UInt32)
  deriving DecidableEq

def ERROR_INVALID_HANDLE : UInt32 := 6

def ERROR_NOT_READY : UInt32 := 21

def user_memory (h : target_handle_t) : Except UInt32 access_t :=
  if !h.valid then .error ERROR_INVALID_HANDLE else .ok (.handle h.native)

/-! The kernel backend. -/

/-- The driver is given the process if it finds its page tables. -/
def kernel_attach (d : device_t) (pid : UInt32) (connects : Bool) (dtb : UInt64) : device_t × target_handle_t :=
  let d := d.connect connects
  if !d.connected then (d, {})
  else if pid = 0 ∨ dtb = 0 then ({ d with process_id := pid, dtb := 0 }, {})
  else ({ d with process_id := pid, dtb }, { native := kernel_sentinel, pid })

/-- A handle of the system is closed by the user-mode backend. -/
def kernel_detach (d : device_t) (h : target_handle_t) : device_t × List os_call_t :=
  (if h.valid && d.connected then d.clear_process_context else d,
    if h.native ≠ 0 ∧ h.native ≠ kernel_sentinel then user_detach h else [])

def kernel_memory (d : device_t) (h : target_handle_t) : Except UInt32 access_t :=
  if !h.valid then .error ERROR_INVALID_HANDLE
  else if !d.ready_for_pid h.pid then .error ERROR_NOT_READY
  else .ok (.driver d.process_id)

/-! The registry and the session. -/

/-- A session. Not in the program: the backend that has attached it. -/
structure session_t where
  m_handle : target_handle_t
  opener : backend_kind_t

inductive use_t where
  | detach | read | write
  deriving DecidableEq

/-- A handle is passed to a backend. -/
structure pass_t where
  backend : backend_kind_t
  opener : backend_kind_t
  use : use_t
  /-- The driver works on the handle's process. -/
  ready : Bool

/-- The registry, the driver's connection and the active session. Not in the program: the calls
to the system, and the passing of handles. -/
structure runtime_t where
  dev : device_t := {}
  g_pref : backend_pref_t := .auto_detect
  g_initialized : Bool := false
  g_active : Option backend_kind_t := none
  g_session : Option session_t := none
  log : List os_call_t := []
  passed : List pass_t := []

def runtime_t.active (s : runtime_t) : backend_kind_t := s.g_active.getD .user_mode

/-- The driver is looked for at most twice, and may come or go in between. -/
def runtime_t.apply_preference (s : runtime_t) (first second : Bool) : runtime_t :=
  match s.g_pref with
  | .force_user => { s with dev := s.dev.disconnect, g_active := some .user_mode }
  | .force_kernel =>
    let dev := s.dev.connect first
    { s with dev, g_active := some (if dev.connected then .kernel else .user_mode) }
  | .auto_detect =>
    let dev := s.dev.connect first
    let dev := (if dev.connected then dev else dev.disconnect).connect second
    { s with dev, g_active := some (if dev.connected then .kernel else .user_mode) }

def runtime_t.registry_init (s : runtime_t) (first second : Bool) : runtime_t :=
  { s.apply_preference first second with g_initialized := true }

def runtime_t.set_backend_preference (s : runtime_t) (pref : backend_pref_t) (first second : Bool) : runtime_t :=
  let s := { s with g_pref := pref }
  if s.g_initialized then s.apply_preference first second else s

/-- The handle of the session is passed to the active backend. -/
def runtime_t.pass (s : runtime_t) (ses : session_t) (use : use_t) : runtime_t :=
  { s with
    passed := s.passed ++ [⟨s.active, ses.opener, use, s.dev.ready_for_pid ses.m_handle.pid⟩] }

/-- The active backend detaches a handle. -/
def runtime_t.detach (s : runtime_t) (h : target_handle_t) : runtime_t :=
  match s.active with
  | .user_mode => { s with log := s.log ++ user_detach h }
  | .kernel => { s with dev := (kernel_detach s.dev h).1, log := s.log ++ (kernel_detach s.dev h).2 }

/-- The session is closed, and dropped. -/
def runtime_t.close (s : runtime_t) : runtime_t :=
  match s.g_session with
  | none => s
  | some ses =>
    { (if ses.m_handle.valid then (s.pass ses .detach).detach ses.m_handle else s) with g_session := none }

/-- What an attach gets from outside: the answers of `OpenProcess`, and of the driver. -/
structure attach_env_t where
  all : Option process_handle_t := none
  few : Option process_handle_t := none
  connects : Bool := false
  dtb : UInt64 := 0

/-- A session is opened by the active backend. -/
def runtime_t.open (s : runtime_t) (pid : UInt32) (env : attach_env_t) : runtime_t :=
  match s.active with
  | .user_mode =>
    let h := user_attach pid env.all env.few
    { s with
      log := if h.native = 0 then s.log else s.log ++ [.opened h.native]
      g_session := if h.valid then some ⟨h, .user_mode⟩ else none }
  | .kernel =>
    let r := kernel_attach s.dev pid env.connects env.dtb
    { s with dev := r.1, g_session := if r.2.valid then some ⟨r.2, .kernel⟩ else none }

/-- A read or a write of the session, by the active backend. -/
def runtime_t.memory (s : runtime_t) (ses : session_t) (use : use_t) : runtime_t × Except UInt32 access_t :=
  let s := s.pass ses use
  match s.active with
  | .user_mode =>
    match user_memory ses.m_handle with
    | .ok (.handle native) => ({ s with log := s.log ++ [.access native] }, .ok (.handle native))
    | r => (s, r)
  | .kernel => (s, kernel_memory s.dev ses.m_handle)

/-- The session is dropped if its process is not listed any more. -/
def runtime_t.target_tick (s : runtime_t) (procs : Option (List UInt32)) : runtime_t :=
  match s.g_session, procs with
  | some ses, some pids => if ses.m_handle.pid ∈ pids then s else s.close
  | _, _ => s

inductive op_t where
  /-- `target_attach` closes the old session, and then opens the new one. -/
  | target_attach_close
  | target_attach_open (pid : UInt32) (env : attach_env_t)
  | target_detach
  /-- With the processes that are listed, if they can be. -/
  | target_tick (procs : Option (List UInt32))
  | read
  | write
  | set_backend_preference (pref : backend_pref_t) (first second : Bool)
  | registry_init (first second : Bool)

def runtime_t.step (s : runtime_t) : op_t → Option runtime_t
  | .target_attach_close => some s.close
  | .target_attach_open pid env => if s.g_session.isNone then some (s.open pid env) else none
  | .target_detach => some s.close
  | .target_tick procs => some (s.target_tick procs)
  | .read => s.g_session.map fun ses => (s.memory ses .read).1
  | .write => s.g_session.map fun ses => (s.memory ses .write).1
  | .set_backend_preference pref first second => some (s.set_backend_preference pref first second)
  | .registry_init first second => some (s.registry_init first second)

end slop.core.runtime
