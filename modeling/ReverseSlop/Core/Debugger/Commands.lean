import ReverseSlop.Core.Debugger.State

namespace slop.core.debugger

open runtime Buffer

/-- `arm_bp` or `disarm_bp` on the entry at a position. -/
def debugger_t.on_entry (op : target_t → breakpoint_t → target_t × breakpoint_t) (s : debugger_t) (i : Nat) :
    debugger_t :=
  match s.bps.elems[i]? with
  | none => s
  | some bp =>
    let (target, bp) := op s.target bp
    { s with target, bps := s.bps.modify i fun _ => bp }

abbrev debugger_t.arm_at (io : backend_t) : debugger_t → Nat → debugger_t := debugger_t.on_entry (arm_bp io)

abbrev debugger_t.disarm_at (io : backend_t) : debugger_t → Nat → debugger_t := debugger_t.on_entry (disarm_bp io)

def debugger_t.set_sw_breakpoint (grow : Growth) (io : backend_t) (s : debugger_t) (va : UInt64) :
    Bool × debugger_t :=
  if (bp_store_t.find s.bps va).isSome then (false, s)
  else
    match io.read_byte s.target va with
    | none => (false, s)
    | some probe =>
      match write_byte_stealth io s.target va 0xCC with
      | (target, false) => (false, { s with target })
      | (target, true) =>
        let bps := s.bps.push_back grow { addr := va, orig_byte := probe, armed := true }
        (true, { s with target, bps, set_sites := va :: s.set_sites })

/-- The first debug register that no entry uses. -/
def bp_store_t.free_slot (bps : bp_store_t) : Option Nat :=
  (List.range 4).find? fun slot => !bps.elems.any fun b => b.hardware && b.hw_slot.toNat = slot

def debugger_t.set_hw_breakpoint (grow : Growth) (io : backend_t) (s : debugger_t) (va : UInt64)
    (len type : UInt32) : Bool × debugger_t :=
  if (bp_store_t.find s.bps va).isSome then (false, s)
  else
    let len := if type = 0 then 1 else len
    match bp_store_t.free_slot s.bps with
    | none => (false, s)
    | some slot =>
      if !io.set_hw_ok then (false, s)
      else
        let bp : breakpoint_t :=
          { addr := va, hardware := true, hw_slot := UInt8.ofNat slot, hw_type := (type &&& 3).toUInt8,
            hw_len := len.toUInt8 }
        (true, { s with bps := s.bps.push_back grow bp })

def debugger_t.clear_breakpoint (io : backend_t) (s : debugger_t) (va : UInt64) : Bool × debugger_t :=
  match bp_store_t.find s.bps va with
  | none => (false, s)
  | some i =>
    let s := s.disarm_at io i
    (true, { s with bps := bp_store_t.remove s.bps va, set_sites := s.set_sites.filter (· ≠ va) })

/-- Empty texts leave the old ones; a log text makes a tracepoint. -/
def breakpoint_t.configure (bp : breakpoint_t) (condition log_text : String) (auto_continue one_shot : Bool) :
    breakpoint_t :=
  { bp with
    condition := if condition.isEmpty then bp.condition else condition
    log_text := if log_text.isEmpty then bp.log_text else log_text
    auto_continue := auto_continue || !log_text.isEmpty
    one_shot }

def debugger_t.configure_breakpoint (s : debugger_t) (va : UInt64) (condition log_text : String)
    (auto_continue one_shot : Bool) : Bool × debugger_t :=
  match bp_store_t.find s.bps va with
  | none => (false, s)
  | some i => (true, { s with bps := s.bps.modify i fun bp => bp.configure condition log_text auto_continue one_shot })

/-- Write a register of the paused thread. -/
def debugger_t.set_register (io : backend_t) (s : debugger_t) (name : String) (value : UInt64) : Bool × debugger_t :=
  if s.state ≠ .paused then (false, s)
  else
    match lookup_reg name.toList with
    | none => (false, s)
    | some p =>
      let s := { s with paused_ctx := s.paused_ctx.set value p }
      match io.set_thread_context s.target s.paused_tid s.paused_ctx with
      | none => (false, s)
      | some target => (true, { s with target })

def debugger_t.request_resume (s : debugger_t) (plan : step_action_t) : debugger_t :=
  { s with pending_plan := plan, resume_mode := .apply_plan }

def debugger_t.go (s : debugger_t) : debugger_t := s.request_resume { kind := .none }

def debugger_t.step_into (s : debugger_t) : debugger_t := s.request_resume { kind := .trap_flag }

def decode_at (engine : disasm.engine_t) (io : backend_t) (t : target_t) (va : UInt64) : Option disasm.insn_t :=
  (io.read_memory t va 16).bind (engine.decode va)

def debugger_t.step_over (engine : disasm.engine_t) (io : backend_t) (s : debugger_t) : debugger_t :=
  match decode_at engine io s.target s.paused_ctx.rip with
  | some insn => s.request_resume (plan_step_over insn)
  | none => s.request_resume { kind := .trap_flag }

/-- The little-endian word of some bytes. -/
def word_of (bytes : List UInt8) : UInt64 := UInt64.ofNat (bytes.foldr (fun byte acc => byte.toNat + 256 * acc) 0)

/-- An unreadable stack leaves the return address zero. -/
def debugger_t.step_out (io : backend_t) (s : debugger_t) : debugger_t :=
  let ret := ((io.read_memory s.target s.paused_ctx.rsp 8).map word_of).getD 0
  s.request_resume (plan_step_out ret)

def debugger_t.set_watchpoint (io : backend_t) (s : debugger_t) (addr len : UInt64) : Bool × debugger_t :=
  if s.watches.any fun w => w.addr = addr then (false, s)
  else
    match io.protect_memory s.target addr len 0x04 with
    | none => (false, s)
    | some (target, prev) =>
      let cur := if prev ≠ 0 then prev else 0x04
      match io.protect_memory target addr len (cur ||| kPageGuardFlag) with
      | none => (false, { s with target })
      | some (target, _) =>
        let w : watchpoint_t := { addr, len, orig_prot := cur }
        let e : debug_event_t :=
          { kind := .note, text := "watchpoint armed @ " ++ toString addr.toNat ++ " len " ++ toString len.toNat }
        (true, { s with target, watches := s.watches ++ [w] }.push_event e)

/-- Give the pages of a watchpoint the protection it found. -/
def restore_watch (io : backend_t) (t : target_t) (w : watchpoint_t) : target_t :=
  ((io.protect_memory t w.addr w.len w.orig_prot).map Prod.fst).getD t

def debugger_t.clear_watchpoint (io : backend_t) (s : debugger_t) (addr : UInt64) : Bool × debugger_t :=
  match s.watches.findIdx? fun w => w.addr = addr with
  | none => (false, s)
  | some i =>
    match s.watches[i]? with
    | none => (false, s)
    | some w => (true, { s with target := restore_watch io s.target w, watches := s.watches.eraseIdx i })

/-- The first critical section of `detach`: every breakpoint is disarmed and every
watchpoint's protection restored, in the order of the lists. -/
def debugger_t.detach_disarm (io : backend_t) (s : debugger_t) : debugger_t :=
  let s := (List.range s.bps.elems.length).foldl (fun s i => s.disarm_at io i) s
  { s with target := s.watches.foldl (restore_watch io) s.target, watches := [], detaching := .disarmed }

/-- `quit_` is set after the lock is released. -/
def debugger_t.detach_quit (s : debugger_t) : debugger_t := { s with quit := true, detaching := .joining }

/-- After the loop thread has ended the records are dropped. -/
def debugger_t.detach_finish (s : debugger_t) : debugger_t :=
  { s with bps := s.bps.clear, hit_bp := none, rearm_pause := false, set_sites := [], state := .idle, detaching := .done }.push_event
    { kind := .detached }

end slop.core.debugger
