import Mathlib.Logic.Function.Basic

namespace slop.core.runtime.driver_autoload

structure load_report_t where
  was_loaded : Bool := false
  attempted : Bool := false
  ok : Bool := false
  error : String := ""
  log_tail : String := ""
  deriving DecidableEq

/-- The report on a call, from what the probe, the mapper and the second probe came to, as far
as the call got to them. -/
def ensure_loaded_with (artifacts_available probe : Bool) (code : Int) (tail : String) (reprobe : Bool) : load_report_t :=
  if probe then { was_loaded := true, ok := true }
  else if !artifacts_available then
    { error := "slop_mapper.exe / slopdrvr.sys not found next to reverse-slop.exe, driver stays unloaded" }
  else if code ≠ 0 then
    { attempted := true
      error := "mapper exit code " ++ (if code < 0 then "spawn-failure" else toString code)
      log_tail := tail }
  else if !reprobe then
    { attempted := true
      error :=
        "device \\\\.\\slopdrvr still absent after mapper run (old build may be resident until reverse-slop exits)" }
  else { attempted := true, log_tail := tail, ok := true }

structure unload_report_t where
  was_loaded : Bool := false
  attempted : Bool := false
  ok : Bool := false
  service_path : String := ""
  error : String := ""
  deriving DecidableEq

/-- A status as `%08lX` prints it. -/
def status_text (status : UInt32) : String :=
  let digits := (Nat.toDigits 16 status.toNat).map Char.toUpper
  String.ofList (List.replicate (8 - digits.length) '0' ++ digits)

/-- The report on a request, from what the probe, the query of the service key, the arming and
the unloading came to, as far as the request got to them. -/
def request_unload_with (probe : Bool) (identity : Option String) (arm : Bool) (status : UInt32) : unload_report_t :=
  if !probe then { ok := true }
  else if identity.getD "" = "" then
    { was_loaded := true
      attempted := true
      error :=
        "driver present but identity query failed, cannot locate its service key (old build?); driver stays loaded" }
  else if !arm then
    { was_loaded := true
      attempted := true
      service_path := identity.getD ""
      error := "driver refused shutdown arm (old build?)" }
  else if status ≠ 0 then
    { was_loaded := true
      attempted := true
      service_path := identity.getD ""
      error := "NtUnloadDriver status 0x" ++ status_text status }
  else { was_loaded := true, attempted := true, ok := true, service_path := identity.getD "" }

/-- The driver that is loaded: whether it refuses requests. Not in the program: whether a mapper
call of this run brought it up and, if none did, whether a probe found it loaded. -/
structure driver_t where
  own : Bool
  quiesced : Bool := false
  found : Bool := false
  deriving DecidableEq

/-- The probe of a load attempt. It tries to unload a quiesced driver, which unloads some
service or none, and the driver then is gone or not. -/
def probe (driver : Option driver_t) (unloaded gone : Bool) : Bool × Option driver_t :=
  match driver with
  | none => (false, none)
  | some d =>
    if d.quiesced = true ∧ unloaded = true then (false, if gone then none else some d)
    else (true, some { d with found := !d.own })

/-- The mapper brings the driver up, or does not. -/
def spawn (driver : Option driver_t) (loads : Bool) : Option driver_t :=
  match driver with
  | none => if loads then some { own := true } else none
  | some d => some d

/-- What a request to unload does to the driver: one that was armed refuses requests. -/
def request_driver_unload (driver : Option driver_t) (identity : Option String) (arm : Bool) (status : UInt32) :
    Option driver_t :=
  match driver with
  | none => none
  | some d =>
    if (request_unload_with true identity arm status).ok then none
    else if identity.getD "" ≠ "" ∧ arm = true then some { d with quiesced := true }
    else some d

/-- A mapper call that is reported as a success follows a probe that found no driver, and one
behind it that did. -/
theorem ensure_loaded_with_ok {artifacts_available probe reprobe : Bool} {code : Int} {tail : String}
    (hattempted : (ensure_loaded_with artifacts_available probe code tail reprobe).attempted = true)
    (hok : (ensure_loaded_with artifacts_available probe code tail reprobe).ok = true) :
    probe = false ∧ code = 0 ∧ reprobe = true := by
  rw [ensure_loaded_with] at hattempted hok
  cases probe with
  | true => cases hattempted
  | false =>
    cases artifacts_available with
    | false => cases hattempted
    | true =>
      by_cases hcode : code = 0
      · cases reprobe with
        | false => simp [hcode] at hok
        | true => exact ⟨rfl, hcode, rfl⟩
      · simp [hcode] at hok

/-- A probe that finds no driver leaves none, if the service that it has unloaded is the driver's. -/
theorem probe_eq {driver driver' : Option driver_t} {unloaded gone present : Bool}
    (hprobe : probe driver unloaded gone = (present, driver')) (hgone : unloaded = true → gone = true) :
    (present = false ∧ driver' = none) ∨
      present = true ∧ ∃ d, driver = some d ∧ driver' = some { d with found := !d.own } := by
  cases driver with
  | none =>
    cases hprobe
    exact Or.inl ⟨rfl, rfl⟩
  | some d =>
    rw [probe] at hprobe
    split at hprobe
    · rename_i hunloads
      rw [hgone hunloads.2] at hprobe
      cases hprobe
      exact Or.inl ⟨rfl, rfl⟩
    · cases hprobe
      exact Or.inr ⟨rfl, d, rfl, rfl⟩

/-- A request to unload leaves none but the driver that was there. -/
theorem mem_request_driver_unload {driver : Option driver_t} {identity : Option String} {arm : Bool} {status : UInt32}
    {d : driver_t} (hd : d ∈ request_driver_unload driver identity arm status) :
    ∃ d' ∈ driver, d.own = d'.own ∧ d.found = d'.found := by
  cases driver with
  | none => cases hd
  | some d' =>
    rw [request_driver_unload] at hd
    split at hd
    · cases hd
    split at hd
    · cases hd
      exact ⟨_, rfl, rfl, rfl⟩
    · cases hd
      exact ⟨_, rfl, rfl, rfl⟩

end slop.core.runtime.driver_autoload
