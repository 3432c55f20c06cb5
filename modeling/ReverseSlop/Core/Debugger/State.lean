import Mathlib.Data.List.DropRight
import ReverseSlop.Core.Disasm.BinaryState
import ReverseSlop.Core.Runtime.Backend
import ReverseSlop.Library.Buffer

namespace slop.core.debugger

open runtime

inductive cond_op_t where
  | eq | ne | lt | gt | le | ge | band
  deriving DecidableEq

structure cond_eval_t where
  valid : Bool := false
  reg : Option reg_ptr_t := none
  op : cond_op_t := .eq
  value : UInt64 := 0
  deriving DecidableEq

def kRegs : List (String × reg_ptr_t) :=
  [("rip", .rip), ("rsp", .rsp), ("rbp", .rbp), ("rax", .rax), ("rbx", .rbx), ("rcx", .rcx), ("rdx", .rdx),
    ("rsi", .rsi), ("rdi", .rdi), ("r8", .r8), ("r9", .r9), ("r10", .r10), ("r11", .r11), ("r12", .r12),
    ("r13", .r13), ("r14", .r14), ("r15", .r15), ("flags", .flags)]

/-- `_stricmp(a, b) == 0`. -/
def stricmp_eq (a b : List Char) : Bool := a.map Char.toLower == b.map Char.toLower

def lookup_reg (name : List Char) : Option reg_ptr_t :=
  (kRegs.find? fun (n, _) => stricmp_eq n.toList name).map Prod.snd

def isspace (c : Char) : Bool := c = ' ' || ('\t' ≤ c && c ≤ '\r')

/-- The character ends a token: `strchr` also finds the terminator of `sep`. -/
def is_separator (sep : List Char) (c : Char) : Bool := c = '\x00' || sep.contains c

def trim_right (cs : List Char) : List Char := cs.rdropWhile isspace

/-- The next token and the text from its end on: blanks before it are skipped,
and blanks at its end are handed back. -/
def token (sep text : List Char) : List Char × List Char :=
  let start := text.dropWhile isspace
  let raw := start.takeWhile fun c => !is_separator sep c
  let tok := trim_right raw
  (tok, start.drop tok.length)

def digit_value (c : Char) : Option Nat :=
  if '0' ≤ c && c ≤ '9' then some (c.toNat - '0'.toNat)
  else if 'a' ≤ c && c ≤ 'f' then some (c.toNat - 'a'.toNat + 10)
  else if 'A' ≤ c && c ≤ 'F' then some (c.toNat - 'A'.toNat + 10)
  else none

/-- The longest number in a base at the start of a text, if there is a digit. -/
def read_digits (base : Nat) (cs : List Char) : Option Nat :=
  let digits := (cs.map digit_value).takeWhile fun d => d.any (· < base)
  if digits.isEmpty then none else some (digits.foldl (fun acc d => acc * base + d.getD 0) 0)

/-- `strtoull` with base 0: a prefix `0x` or `0` chooses the base. -/
def read_prefixed (cs : List Char) : Option Nat :=
  match cs with
  | '0' :: x :: rest =>
    if x = 'x' || x = 'X' then (read_digits 16 rest).or (some 0) else read_digits 8 cs
  | _ => read_digits 10 cs

/-- `std::stoull(val, nullptr, 0)`; `none` is an exception. What follows the number
is ignored, and a minus sign negates it. -/
def stoull (text : List Char) : Option UInt64 :=
  let number (cs : List Char) : Option Nat := (read_prefixed cs).filter (· < UInt64.size)
  match text.dropWhile isspace with
  | '-' :: rest => (number rest).map fun n => 0 - UInt64.ofNat n
  | '+' :: rest => (number rest).map UInt64.ofNat
  | cs => (number cs).map UInt64.ofNat

def parse_op (op : List Char) : Option cond_op_t :=
  if op = ['=', '='] then some .eq
  else if op = ['!', '='] then some .ne
  else if op = ['<'] then some .lt
  else if op = ['>'] then some .gt
  else if op = ['<', '='] then some .le
  else if op = ['>', '='] then some .ge
  else if op = ['&'] then some .band
  else none

/-- `reg op value`; only a condition that is complete is valid. -/
def parse_condition (text : String) : cond_eval_t :=
  let (reg_name, rest) := token [' ', '\t'] text.toList
  if reg_name.isEmpty then {}
  else
    match lookup_reg reg_name with
    | none => {}
    | some reg =>
      let (op_text, rest) := token " 0123456789xXabcdefABCDEF-".toList rest
      match parse_op op_text with
      | none => { reg := some reg }
      | some op =>
        let (val, _) := token [] rest
        if val.isEmpty then { reg := some reg, op }
        else
          match stoull val with
          | none => { reg := some reg, op }
          | some value => { valid := true, reg := some reg, op, value }

def eval_condition (c : cond_eval_t) (ctx : thread_context_t) : Bool :=
  if !c.valid then false
  else
    match c.reg with
    | none => false
    | some reg =>
      let v := ctx.get reg
      match c.op with
      | .eq => v == c.value
      | .ne => v != c.value
      | .lt => v < c.value
      | .gt => v > c.value
      | .le => v ≤ c.value
      | .ge => v ≥ c.value
      | .band => v &&& c.value != 0

example : parse_condition "rax == 0x10" = { valid := true, reg := some .rax, op := .eq, value := 16 } := by decide

open runtime Buffer

inductive dbg_state_t where
  | idle | running | paused
  deriving DecidableEq

inductive event_kind_t where
  | attached | detached | bp_hit | single_step | exception | thread_create | thread_exit | dll_load | dll_unload
  | process_exit | note
  deriving DecidableEq

structure debug_event_t where
  kind : event_kind_t := .note
  tid : UInt32 := 0
  address : UInt64 := 0
  exc_code : UInt32 := 0
  text : String := ""
  ctx : thread_context_t := {}

/-- `temporary` is not in the program: it marks an entry that a step over or a step
out has added. -/
structure breakpoint_t where
  addr : UInt64 := 0
  hardware : Bool := false
  hw_slot : UInt8 := 0
  hw_type : UInt8 := 0
  hw_len : UInt8 := 1
  orig_byte : UInt8 := 0xCC
  armed : Bool := false
  hits : UInt32 := 0
  condition : String := ""
  log_text : String := ""
  auto_continue : Bool := false
  one_shot : Bool := false
  temporary : Bool := false

structure watchpoint_t where
  addr : UInt64 := 0
  len : UInt64 := 0
  orig_prot : UInt32 := 0
  hits : UInt64 := 0

inductive step_kind_t where
  | none | trap_flag | temp_breakpoint
  deriving DecidableEq

structure step_action_t where
  kind : step_kind_t := .none
  temp_addr : UInt64 := 0
  deriving DecidableEq

/-- Step over plants a breakpoint after calls and single steps everything else. -/
def plan_step_over (at_rip : disasm.insn_t) : step_action_t :=
  if at_rip.flow = .call && 0 < at_rip.length then
    { kind := .temp_breakpoint, temp_addr := at_rip.va + at_rip.length.toUInt64 }
  else { kind := .trap_flag }

/-- Step out breaks on the return address. -/
def plan_step_out (return_addr : UInt64) : step_action_t :=
  { kind := .temp_breakpoint, temp_addr := return_addr }

inductive resume_mode_t where
  | none | apply_plan | step_rearm
  deriving DecidableEq

abbrev bp_store_t := Vec breakpoint_t

def bp_store_t.find (bps : bp_store_t) (addr : UInt64) : Option Nat := Vec.find bps fun b => b.addr = addr

theorem bp_store_t.find_some {bps : bp_store_t} {addr : UInt64} {i : Nat} (hfind : bp_store_t.find bps addr = some i) :
    ∃ bp, bps.elems[i]? = some bp ∧ bp.addr = addr := by
  obtain ⟨bp, hget, htest⟩ := Vec.find_eq_some hfind
  exact ⟨bp, hget, of_decide_eq_true htest⟩

/-- Only the addresses of the entries decide what is found. -/
theorem bp_store_t.find_congr {bps bps' : bp_store_t}
    (haddr : bps'.elems.map breakpoint_t.addr = bps.elems.map breakpoint_t.addr) (addr : UInt64) :
    bp_store_t.find bps' addr = bp_store_t.find bps addr := by
  have hmap : ∀ l : List breakpoint_t,
      l.findIdx? (fun b => b.addr = addr) = (l.map breakpoint_t.addr).findIdx? (· = addr) := by
    intro l
    rw [List.findIdx?_map]
    rfl
  rw [bp_store_t.find, Vec.find, hmap, haddr, ← hmap]
  rfl

theorem bp_store_t.find_before {bps : bp_store_t} {addr : UInt64} {i j : Nat} {bp : breakpoint_t}
    (hfind : bp_store_t.find bps addr = some i) (hj : j < i) (hget : bps.elems[j]? = some bp) : bp.addr ≠ addr := by
  have hfalse := Vec.find_before hfind hj hget
  exact of_decide_eq_false hfalse

theorem bp_store_t.find_none {bps : bp_store_t} {addr : UInt64} (hfind : bp_store_t.find bps addr = none) :
    ∀ bp ∈ bps.elems, bp.addr ≠ addr := by
  intro bp hbp
  obtain ⟨i, hget⟩ := List.getElem?_of_mem hbp
  exact of_decide_eq_false (Vec.find_eq_none hfind i bp hget)

/-- The one caller of `add` plants temporary breakpoints. -/
def bp_store_t.add (grow : Growth) (bps : bp_store_t) (addr : UInt64) (orig_byte : UInt8) (hw : Bool) : bp_store_t :=
  if (bp_store_t.find bps addr).isSome then bps
  else bps.push_back grow { addr, orig_byte, hardware := hw, temporary := true }

def bp_store_t.remove (bps : bp_store_t) (addr : UInt64) : bp_store_t := bps.erase_if fun b => b.addr = addr

theorem bp_store_t.mem_remove {bps : bp_store_t} {addr : UInt64} {bp : breakpoint_t} :
    bp ∈ (bp_store_t.remove bps addr).elems ↔ bp ∈ bps.elems ∧ bp.addr ≠ addr := by
  rw [bp_store_t.remove, Vec.elems_erase_if, List.mem_filter]
  simp only [Bool.not_eq_true', decide_eq_false_iff_not, ne_eq]

def kStatusBreakpoint : UInt32 := 0x80000003

def kStatusSingleStep : UInt32 := 0x40000006

def kStatusGuardPage : UInt32 := 0x80000001

def kPageGuardFlag : UInt32 := 0x100

inductive continue_status_t where
  | DBG_CONTINUE | DBG_EXCEPTION_NOT_HANDLED
  deriving DecidableEq

/-- Where the loop thread is: at the top, in `WaitForDebugEventEx`, in the wait for
the user after an event of a thread, or out of the loop. -/
inductive loop_pc_t where
  | top
  | waiting
  | paused (tid : UInt32) (status : continue_status_t)
  | exited
  deriving DecidableEq

def loop_pc_t.is_paused : loop_pc_t → Bool
  | .paused _ _ => true
  | _ => false

/-- How far a call of `detach` has come: not begun, out of its first critical section,
waiting for the loop thread, done. -/
inductive detach_pc_t where
  | none | disarmed | joining | done
  deriving DecidableEq

/-- A session of the user-mode loop, where `kdev_` is null. The last three fields are
not in the program: the address of the last breakpoint hit, the temporary
breakpoint the loop is paused on, and the addresses the user has set and not
cleared. -/
structure debugger_t where
  target : target_t
  state : dbg_state_t := .running
  quit : Bool := false
  resume_mode : resume_mode_t := .none
  pending_plan : step_action_t := {}
  rearm_pause : Bool := false
  paused_tid : UInt32 := 0
  paused_ctx : thread_context_t := {}
  hit_bp : Option Ptr := none
  bps : bp_store_t := Vec.empty
  watches : List watchpoint_t := []
  events : List debug_event_t := []
  loop : loop_pc_t := .top
  detaching : detach_pc_t := .none
  hit_site : UInt64 := 0
  landed : Option UInt64 := none
  set_sites : List UInt64 := []

def kMaxEvents : Nat := 4096

/-- The ring keeps the newest events. -/
def debugger_t.push_event (s : debugger_t) (e : debug_event_t) : debugger_t :=
  let events := s.events ++ [e]
  { s with events := events.drop (events.length - kMaxEvents) }

@[simp] theorem debugger_t.target_push_event (s : debugger_t) (e : debug_event_t) :
    (s.push_event e).target = s.target := by
  unfold debugger_t.push_event
  rfl

@[simp] theorem debugger_t.watches_push_event (s : debugger_t) (e : debug_event_t) :
    (s.push_event e).watches = s.watches := by
  unfold debugger_t.push_event
  rfl

/-- Flip the page to read-write, write the byte, put the protection back. -/
def write_byte_stealth (io : backend_t) (t : target_t) (va : UInt64) (val : UInt8) : target_t × Bool :=
  let page := va &&& ~~~0xFFF
  match io.protect_memory t page 0x1000 0x04 with
  | none => (t, false)
  | some (t, old_prot) =>
    let (t, ok) := match io.write_memory t va val with
      | none => (t, false)
      | some t => (t, true)
    match io.protect_memory t page 0x1000 (if old_prot ≠ 0 then old_prot else 0x04) with
    | none => (t, ok)
    | some (t, _) => (t, ok)

def arm_bp (io : backend_t) (t : target_t) (bp : breakpoint_t) : target_t × breakpoint_t :=
  if bp.armed || bp.hardware then (t, bp)
  else
    match io.read_byte t bp.addr with
    | none => (t, bp)
    | some probe =>
      match write_byte_stealth io t bp.addr 0xCC with
      | (t, false) => (t, bp)
      | (t, true) => (t, { bp with orig_byte := probe, armed := true })

def disarm_bp (io : backend_t) (t : target_t) (bp : breakpoint_t) : target_t × breakpoint_t :=
  if !bp.armed || bp.hardware then (t, bp)
  else
    match write_byte_stealth io t bp.addr bp.orig_byte with
    | (t, false) => (t, bp)
    | (t, true) => (t, { bp with armed := false })

/-- Set or clear the trap flag of a thread. -/
def set_tf (io : backend_t) (t : target_t) (tid : UInt32) (on : Bool) : target_t :=
  match io.get_thread_context t tid with
  | none => t
  | some ctx =>
    let flags := if on then ctx.flags ||| kTrapFlag else ctx.flags &&& ~~~kTrapFlag
    (io.set_thread_context t tid { ctx with flags }).getD t

end slop.core.debugger
