import Mathlib.Logic.Function.Basic

namespace slop.core.infra.settings

/-- A value in the settings file. Lists and objects are kept as they are. -/
inductive json_t where
  | null
  | boolean (b : Bool)
  | number (n : Int)
  | string (s : String)
  | structured (text : String)
  deriving DecidableEq

/-- The settings in memory, by key. -/
abbrev object_t := String → Option json_t

def empty : object_t := fun _ => none

/-- The settings file: it may be missing, or not parse. -/
inductive file_t where
  | missing
  | malformed
  | object (data : object_t)

def file_t.is_missing : file_t → Bool
  | .missing => true
  | .malformed | .object _ => false

/-- The value that a setting has in the file. -/
def file_t.setting : file_t → object_t
  | .object data => data
  | .missing | .malformed => empty

def load : file_t → object_t
  | .object data => data
  | .missing | .malformed => empty

def save (data : object_t) : file_t := .object data

/-- The file's settings are those that are loaded from it. -/
theorem load_eq_setting (file : file_t) : load file = file.setting := by
  cases file <;> rfl

/-! The getters. A value of another type throws. -/

def get_bool (data : object_t) (key : String) (default : Bool) : Option Bool :=
  match data key with
  | none => some default
  | some (.boolean b) => some b
  | some _ => none

def get_string (data : object_t) (key default : String) : Option String :=
  match data key with
  | none => some default
  | some (.string s) => some s
  | some _ => none

def get_int (data : object_t) (key : String) (default : Int) : Option Int :=
  match data key with
  | none => some default
  | some (.number n) => some n
  | some (.boolean b) => some b.toInt
  | some _ => none

def mcp_enabled (data : object_t) : Option Bool := get_bool data "mcp_enabled" true

def mcp_port (data : object_t) : Option UInt16 := (get_int data "mcp_port" 8765).map UInt16.ofInt

def mcp_token (data : object_t) : Option String := get_string data "mcp_token" ""

def mcp_onboarded (data : object_t) : Option Bool := get_bool data "mcp_onboarded" false

/-! The setters. -/

/-- A call of a setter. -/
inductive setter_t where
  | set_layout_version (v : UInt32)
  | set_last_target (name : String) (pid : UInt32)
  | set_mcp (enabled : Bool) (port : UInt16) (token : String)
  | set_mcp_onboarded (v : Bool)
  | set_stealth_peb_spoof (v : Bool)
  | set_stealth_kernel_debug (v : Bool)
  deriving DecidableEq

/-- The settings that a call changes, with their new values. -/
def setter_t.writes : setter_t → List (String × json_t)
  | .set_layout_version v => [("layout_version", .number v.toNat)]
  | .set_last_target name pid => [("last_target_name", .string name), ("last_target_pid", .number pid.toNat)]
  | .set_mcp enabled port token =>
    [("mcp_enabled", .boolean enabled), ("mcp_port", .number port.toNat), ("mcp_token", .string token)]
  | .set_mcp_onboarded v => [("mcp_onboarded", .boolean v)]
  | .set_stealth_peb_spoof v => [("stealth_peb_spoof", .boolean v)]
  | .set_stealth_kernel_debug v => [("stealth_kernel_debug", .boolean v)]

/-- The settings that a call changes. -/
def setter_t.keys (call : setter_t) : List String := call.writes.map Prod.fst

def set (data : object_t) (call : setter_t) : object_t :=
  call.writes.foldl (fun data w => Function.update data w.1 (some w.2)) data

/-- A setter leaves the other settings alone. -/
theorem set_of_not_mem {data : object_t} {call : setter_t} {key : String} (hkey : key ∉ call.keys) :
    set data call key = data key := by
  rw [set]
  rw [setter_t.keys] at hkey
  generalize call.writes = writes at hkey
  induction writes generalizing data with
  | nil => rfl
  | cons w writes ih =>
    rw [List.map_cons, List.mem_cons, not_or] at hkey
    rw [List.foldl_cons, ih hkey.2, Function.update_of_ne hkey.1]

end slop.core.infra.settings
